import StyleSieve.Rewrite.Rewriter

/-!
# Pages in pieces

A rewriter reads bytes, so how a page is cut into pieces does not matter.  The counts of bytes are
the only trace of a call: they ride along with a run (`run_count`), which never reads them, and add
up over the pieces.

* `Progress.run_append`, `Progress.push_append`: two pieces in a row are one piece.
* `Rewriter.complete_eq`: a page in pieces is rewritten as the whole page.
* `Rewriter.complete_counts`: what is counted is what went in and what came out.
-/

namespace StyleSieve.Rewrite

namespace Progress

variable (supply : Supply) (options : Options)

theorem run_append (p : Progress) (a b : Bytes) :
    p.run supply options (a ++ b) =
      (((p.run supply options a).1.run supply options b).1,
        (p.run supply options a).2 ++ ((p.run supply options a).1.run supply options b).2) := by
  induction a generalizing p with
  | nil => rfl
  | cons x a ih => simp only [List.cons_append, run, ih, List.append_assoc]

theorem run_singleton (p : Progress) (b : UInt8) :
    p.run supply options [b] = p.step supply options b := by
  simp only [run, List.append_nil]

/-! ### Counted bytes are never read -/

theorem regionByte_count (p : Progress) (depth : Nat) (m : Markup.Matcher) (b : UInt8)
    (i o : Nat) :
    (p.count i o).regionByte options depth m b = (p.regionByte options depth m b).count i o := by
  unfold regionByte
  split <;> rfl

theorem step_count (p : Progress) (b : UInt8) (i o : Nat) :
    (p.count i o).step supply options b =
      ((p.step supply options b).1.count i o, (p.step supply options b).2) := by
  obtain ⟨mode, usage, emitted, sent, counts⟩ := p
  cases mode with
  | markup s => rfl
  | region depth m => exact Prod.ext (regionByte_count ..) rfl
  | regionTag depth side quote =>
      simp only [step, count, regionTagByte]
      split <;> rfl
  | gap latest room m =>
      simp only [step, count, gapByte]
      split
      · split <;> rfl
      · split <;> rfl
  | gapTag quote =>
      simp only [step, count]
      split <;> rfl

theorem atEnd_count (p : Progress) (i o : Nat) :
    (p.count i o).atEnd supply options =
      ((p.atEnd supply options).1.count i o, (p.atEnd supply options).2) := by
  obtain ⟨mode, usage, emitted, sent, counts⟩ := p
  cases mode <;> rfl

theorem run_count (p : Progress) (bytes : Bytes) (i o : Nat) :
    (p.count i o).run supply options bytes =
      ((p.run supply options bytes).1.count i o, (p.run supply options bytes).2) := by
  induction bytes generalizing p with
  | nil => rfl
  | cons b bytes ih => simp only [run, step_count, ih]

theorem count_count (p : Progress) (i o i' o' : Nat) :
    (p.count i o).count i' o' = p.count (i + i') (o + o') := by
  simp only [count, Nat.add_assoc]

/-- A step counts no bytes. -/
theorem step_bytes (p : Progress) (b : UInt8) :
    (p.step supply options b).1.counts.bytesIn = p.counts.bytesIn ∧
      (p.step supply options b).1.counts.bytesOut = p.counts.bytesOut := by
  obtain ⟨mode, usage, emitted, sent, counts⟩ := p
  cases mode with
  | markup s => exact ⟨rfl, rfl⟩
  | region depth m =>
      simp only [step, regionByte]
      split <;> exact ⟨rfl, rfl⟩
  | regionTag depth side quote =>
      simp only [step, regionTagByte]
      split <;> exact ⟨rfl, rfl⟩
  | gap latest room m =>
      simp only [step, gapByte]
      split
      · split <;> exact ⟨rfl, rfl⟩
      · split <;> exact ⟨rfl, rfl⟩
  | gapTag quote =>
      simp only [step]
      split <;> exact ⟨rfl, rfl⟩

theorem run_bytes (p : Progress) (bytes : Bytes) :
    (p.run supply options bytes).1.counts.bytesIn = p.counts.bytesIn ∧
      (p.run supply options bytes).1.counts.bytesOut = p.counts.bytesOut := by
  induction bytes generalizing p with
  | nil => exact ⟨rfl, rfl⟩
  | cons b bytes ih =>
      obtain ⟨hi, ho⟩ := ih (p.step supply options b).1
      obtain ⟨hi', ho'⟩ := step_bytes supply options p b
      exact ⟨hi.trans hi', ho.trans ho'⟩

theorem atEnd_bytesIn (p : Progress) :
    (p.atEnd supply options).1.counts.bytesIn = p.counts.bytesIn := by
  unfold atEnd
  split <;> rfl

theorem atEnd_bytesOut (p : Progress) :
    (p.atEnd supply options).1.counts.bytesOut = p.counts.bytesOut := by
  unfold atEnd
  split <;> rfl

/-! ### Two pieces are one -/

theorem push_append (p : Progress) (a b : Bytes) :
    p.push supply options (a ++ b) =
      (((p.push supply options a).1.push supply options b).1,
        (p.push supply options a).2 ++ ((p.push supply options a).1.push supply options b).2) := by
  simp only [push, run_append, run_count, count_count, List.length_append]

end Progress

namespace Rewriter

theorem push_append (r : Rewriter) (a b : Bytes) :
    r.push (a ++ b) =
      (((r.push a).1.push b).1, (r.push a).2 ++ ((r.push a).1.push b).2) := by
  simp only [push, Progress.push_append]

theorem push_nil (r : Rewriter) : r.push [] = (r, []) := rfl

/-- A page in pieces is rewritten as the whole page. -/
theorem complete_eq (r : Rewriter) (pieces : List Bytes) :
    r.complete pieces =
      ((r.push pieces.flatten).1.finish.1,
        (r.push pieces.flatten).2 ++ (r.push pieces.flatten).1.finish.2) := by
  induction pieces generalizing r with
  | nil => rfl
  | cons piece pieces ih =>
      simp only [complete, ih, List.flatten_cons, push_append, List.append_assoc]

/-- What is counted in all is the length of the page and of the output, on top of what was counted
before. -/
theorem complete_counts (r : Rewriter) (pieces : List Bytes) :
    (r.complete pieces).1.bytesIn = r.progress.counts.bytesIn + pieces.flatten.length ∧
      (r.complete pieces).1.bytesOut =
        r.progress.counts.bytesOut + (r.complete pieces).2.length := by
  obtain ⟨hi, ho⟩ := Progress.run_bytes r.supply r.options r.progress pieces.flatten
  rw [complete_eq]
  refine ⟨?_, ?_⟩
  · simp only [push, Progress.push, finish, Progress.finish, Progress.stats, Progress.count,
      Progress.atEnd_bytesIn, hi, Nat.add_zero]
  · simp only [push, Progress.push, finish, Progress.finish, Progress.stats, Progress.count,
      Progress.atEnd_bytesOut, ho, List.length_append, Nat.add_assoc]

/-- A page in pieces is rewritten as the whole page, whatever the pieces are. -/
theorem complete_flatten (r : Rewriter) (pieces : List Bytes) :
    r.complete pieces = r.complete [pieces.flatten] := by
  rw [complete_eq, complete_eq, List.flatten_singleton]

/-- Pushing a part of the page and then completing it is completing the whole. -/
theorem complete_append (r : Rewriter) (a b : Bytes) :
    r.complete [a ++ b] =
      (((r.push a).1.complete [b]).1, (r.push a).2 ++ ((r.push a).1.complete [b]).2) := by
  rw [complete_eq, complete_eq, List.flatten_singleton, List.flatten_singleton, push_append,
    List.append_assoc]

theorem complete_nil (r : Rewriter) : r.complete [[]] = r.finish := by
  rw [complete_eq, List.flatten_singleton, push_nil, List.nil_append]

/-- What has been written in all, and the regions counted, are those of a run and its end. -/
theorem complete_atEnd (supply : Supply) (options : Options) (pieces : List Bytes) :
    (complete { supply, options } pieces).2 =
        (Progress.run supply options {} pieces.flatten).2 ++
          (Progress.atEnd supply options (Progress.run supply options {} pieces.flatten).1).2 ∧
      (complete { supply, options } pieces).1.regions =
        (Progress.atEnd supply options
          (Progress.run supply options {} pieces.flatten).1).1.counts.regions := by
  rw [complete_eq]
  simp only [push, Progress.push, finish, Progress.finish, Progress.stats, Progress.atEnd_count]
  exact ⟨trivial, rfl⟩

end Rewriter

end StyleSieve.Rewrite
