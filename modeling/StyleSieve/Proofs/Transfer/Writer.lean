import StyleSieve.Proofs.Rewrite.Chunks
import StyleSieve.Transfer.Writer

/-!
# A writer delivers every byte once

However the sink replies, what it has taken and what is still pending make up, in this order, the
output of a rewriter for the bytes that writes have taken (`Writer.Delivers`).  One call keeps this:
a write sends what is pending before it reads anything, so one that fails has read nothing, and one
that succeeds has read all its bytes, whatever became of their output.

* `deliver_spec`: what is sent to a sink is taken or left, in order; without a failure nothing is
  left.
* `Writer.call_delivers`, `Writer.calls_delivers`: one call, and any calls in a row.
* `Writer.delivers_once`: the state after any calls, and what the next one can do to it.
* `Writer.writePage_ok`, `Writer.writePage_calm`: a page written as a whole.
-/

namespace StyleSieve.Transfer

open Rewrite (Rewriter)

/-! ### Sending to a sink -/

theorem Event.written_append (a b : List Event) :
    Event.written (a ++ b) = Event.written a ++ Event.written b :=
  List.flatMap_append

/-- What is sent is taken or left, in order; without a failure nothing is left. -/
theorem deliver_spec (replies : List Reply) (bytes : Bytes) :
    Event.written (deliver replies bytes).events ++ (deliver replies bytes).left = bytes ∧
      ((deliver replies bytes).failure = none → (deliver replies bytes).left = []) := by
  induction replies generalizing bytes with
  | nil => cases bytes <;> simp [deliver, Event.written]
  | cons reply replies ih =>
      cases bytes with
      | nil => simp [deliver, Event.written]
      | cons b bytes =>
          cases reply with
          | acceptAll => simp [deliver, Event.written]
          | accept most =>
              by_cases h : most = 0
              · simp [deliver, h, Event.written]
              · -- what is not taken is offered again
                obtain ⟨hw, hl⟩ := ih ((b :: bytes).drop most)
                simp only [deliver, h, if_false, Delivery.after]
                refine ⟨?_, hl⟩
                show (b :: bytes).take most ++ Event.written _ ++ _ = _
                rw [List.append_assoc, hw, List.take_append_drop]
          | fail f =>
              by_cases h : f.isTransient
              · obtain ⟨hw, hl⟩ := ih (b :: bytes)
                simp only [deliver, h, if_true, Delivery.after]
                exact ⟨hw, hl⟩
              · simp [deliver, h, Event.written]

/-- A reply that lets a write go on: it takes something, or is an interruption. -/
def Reply.Calm : Reply → Prop
  | .accept most => 0 < most
  | .acceptAll => True
  | .fail f => f.isTransient = true

/-- A sink that takes all that is sent, if perhaps little by little. -/
structure Sink.Calm (s : Sink Reply) : Prop where
  replies : ∀ reply ∈ s.replies, reply.Calm
  flushes : ∀ flush ∈ s.flushes, flush = none

theorem deliver_calm {replies : List Reply} (h : ∀ reply ∈ replies, reply.Calm) (bytes : Bytes) :
    (deliver replies bytes).failure = none ∧
      ∀ reply ∈ (deliver replies bytes).replies, reply.Calm := by
  induction replies generalizing bytes with
  | nil => cases bytes <;> simp [deliver]
  | cons reply replies ih =>
      cases bytes with
      | nil => exact ⟨rfl, h⟩
      | cons b bytes =>
          obtain ⟨hreply, hreplies⟩ := List.forall_mem_cons.1 h
          cases reply with
          | acceptAll => exact ⟨rfl, hreplies⟩
          | accept most =>
              have hmost : most ≠ 0 := Nat.pos_iff_ne_zero.1 hreply
              simp only [deliver, hmost, if_false, Delivery.after]
              exact ih hreplies _
          | fail f =>
              have hf : f.isTransient = true := hreply
              simp only [deliver, hf, if_true, Delivery.after]
              exact ih hreplies _

theorem Sink.flush_calm {ρ : Type} {s : Sink ρ} (h : ∀ flush ∈ s.flushes, flush = none) :
    s.flush.2 = none := by
  unfold flush
  split
  case h_1 f _ e => exact absurd (h (some f) (by simp [e])) (by simp)
  all_goals rfl

theorem Sink.received_flush {ρ : Type} (s : Sink ρ) : s.flush.1.received = s.received := by
  unfold Sink.flush
  split <;> simp [Sink.received, Sink.events, Sink.record, Event.written]

namespace Writer

/-! ### Sending what is pending -/

theorem drain_rewriter (w : Writer) : w.drain.1.rewriter = w.rewriter := rfl

/-- Sending moves bytes from what is pending to what is taken. -/
theorem drain_received (w : Writer) :
    w.drain.1.sink.received ++ w.drain.1.pending = w.sink.received ++ w.pending := by
  have h := (deliver_spec w.sink.replies w.pending).1
  simp only [drain, Sink.received, Sink.events, List.reverse_append, List.reverse_reverse,
    Event.written_append, List.append_assoc, h]

theorem drain_pending {w : Writer} (h : w.drain.2 = none) : w.drain.1.pending = [] :=
  (deliver_spec w.sink.replies w.pending).2 h

theorem flush_rewriter (w : Writer) : w.flush.1.rewriter = w.rewriter := by
  have hr := drain_rewriter w
  rcases hd : w.drain with ⟨next, _ | f⟩
  all_goals
    simp only [hd] at hr
    simp only [Writer.flush, hd, hr]

theorem flush_received (w : Writer) :
    w.flush.1.sink.received ++ w.flush.1.pending = w.sink.received ++ w.pending := by
  have hw := drain_received w
  rcases hd : w.drain with ⟨next, _ | f⟩
  all_goals
    simp only [hd] at hw
    simp only [Writer.flush, hd, Sink.received_flush, hw]

/-- A flush that succeeds leaves nothing pending. -/
theorem flush_pending {w : Writer} (h : w.flush.2 = none) : w.flush.1.pending = [] := by
  have hp := drain_pending (w := w)
  rcases hd : w.drain with ⟨next, _ | f⟩
  · simp only [hd, forall_const] at hp
    simp only [Writer.flush, hd]
    exact hp
  · simp only [Writer.flush, hd] at h
    cases h

/-! ### Calls in a row -/

/-- A call of a writer before its page ends. -/
inductive Call where
  | write (bytes : Bytes)
  | flush

/-- Does what is asked: the writer after it, and the bytes that it took.  A write that fails takes
none. -/
def call (w : Writer) : Call → Writer × Bytes
  | .write bytes =>
    match w.write bytes with
    | (w, .ok _) => (w, bytes)
    | (w, .error _) => (w, [])
  | .flush => (w.flush.1, [])

/-- Does what is asked, one call after another: the writer after all, and the bytes taken by all. -/
def calls (w : Writer) : List Call → Writer × Bytes
  | [] => (w, [])
  | c :: rest =>
    let (next, taken) := w.call c
    let (last, more) := calls next rest
    (last, taken ++ more)

/-- The writer has taken `taken` of the page of `r`, in front of a sink that had received `before`:
its rewriter is `r` after these bytes, and what the sink received since and what is pending are what
`r` makes of them. -/
structure Delivers (r : Rewriter) (before taken : Bytes) (w : Writer) : Prop where
  rewriter : w.rewriter = (r.push taken).1
  received : w.sink.received ++ w.pending = before ++ (r.push taken).2

variable {r : Rewriter} {before taken : Bytes} {w : Writer}

theorem Delivers.drain (h : Delivers r before taken w) : Delivers r before taken w.drain.1 :=
  ⟨h.rewriter, (drain_received w).trans h.received⟩

/-- More of the page is read, and its output goes behind what is pending. -/
theorem Delivers.push (h : Delivers r before taken w) (bytes : Bytes) :
    Delivers r before (taken ++ bytes)
      { w with
        rewriter := (w.rewriter.push bytes).1
        pending := w.pending ++ (w.rewriter.push bytes).2 } := by
  obtain ⟨hr, hw⟩ := h
  rw [hr]
  refine ⟨by rw [Rewriter.push_append], ?_⟩
  rw [Rewriter.push_append, ← List.append_assoc, hw, List.append_assoc]

theorem Delivers.flush (h : Delivers r before taken w) : Delivers r before taken w.flush.1 :=
  ⟨(flush_rewriter w).trans h.rewriter, (flush_received w).trans h.received⟩

/-- A write that fails leaves the rewriter alone; one that succeeds has taken all of its bytes. -/
theorem write_spec (h : Delivers r before taken w) (bytes : Bytes) :
    (∀ f, (w.write bytes).2 = .error f →
      (w.write bytes).1.rewriter = w.rewriter ∧ Delivers r before taken (w.write bytes).1) ∧
    (∀ n, (w.write bytes).2 = .ok n →
      n = bytes.length ∧ Delivers r before (taken ++ bytes) (w.write bytes).1) := by
  have h' := h.drain
  have hr := drain_rewriter w
  rcases hd : w.drain with ⟨next, _ | f⟩
  · simp only [hd] at h' hr
    simp only [Writer.write, hd]
    refine ⟨fun _ hf => (nomatch hf), fun n hn => ?_⟩
    cases hn
    exact ⟨rfl, (h'.push bytes).drain⟩
  · simp only [hd] at h' hr
    simp only [Writer.write, hd]
    exact ⟨fun _ _ => ⟨hr, h'⟩, fun _ hn => (nomatch hn)⟩

theorem call_delivers (h : Delivers r before taken w) (c : Call) :
    Delivers r before (taken ++ (w.call c).2) (w.call c).1 := by
  cases c with
  | flush => exact (List.append_nil taken).symm ▸ h.flush
  | write bytes =>
      obtain ⟨herr, hok⟩ := write_spec h bytes
      rcases hw : w.write bytes with ⟨next, n | f⟩
      · simp only [hw, Except.error.injEq, forall_eq'] at herr
        simp only [call, hw, List.append_nil]
        exact herr.2
      · simp only [hw, Except.ok.injEq, forall_eq'] at hok
        simp only [call, hw]
        exact hok.2

theorem calls_delivers (h : Delivers r before taken w) (cs : List Call) :
    Delivers r before (taken ++ (w.calls cs).2) (w.calls cs).1 := by
  induction cs generalizing w taken with
  | nil => exact (List.append_nil taken).symm ▸ h
  | cons c cs ih =>
      have h' := ih (call_delivers h c)
      rwa [List.append_assoc] at h'

/-! ### The end of the page -/

/-- An end that succeeds has sent all that the rewriter makes of the page. -/
theorem finish_spec (h : Delivers r before taken w) {stats : Rewrite.Stats}
    (hf : w.finish.2 = .ok stats) :
    w.finish.1.sink.received = before ++ (r.complete [taken]).2 ∧
      w.finish.1.pending = [] ∧ stats = (r.complete [taken]).1 := by
  have h' := h.drain
  rw [Rewriter.complete_eq, List.flatten_singleton]
  rcases hd : w.drain with ⟨next, _ | f⟩
  · simp only [hd] at h'
    obtain ⟨hr, hw⟩ := h'
    -- the last bytes go behind what is pending, and a flush sends both
    let last : Writer := { next with pending := next.pending ++ next.rewriter.finish.2 }
    have hw' : last.flush.1.sink.received ++ last.flush.1.pending =
        before ++ ((r.push taken).2 ++ (r.push taken).1.finish.2) := by
      rw [flush_received, ← hr, ← List.append_assoc, ← List.append_assoc, ← hw]
    have hp := flush_pending (w := last)
    simp only [Writer.finish, hd] at hf ⊢
    rcases hl : last.flush with ⟨done, _ | f⟩
    · simp only [hl, forall_const] at hw' hp
      simp only [last] at hl
      simp only [hl, Except.ok.injEq] at hf ⊢
      rw [hp, List.append_nil] at hw'
      exact ⟨hw', hp, by rw [← hf, hr]⟩
    · simp only [last] at hl
      simp only [hl] at hf
      cases hf
  · simp only [Writer.finish, hd] at hf
    cases hf

/-- **Every byte once.**  After any calls of a writer, whatever its sink replied, what the sink has
received and what is pending are, in order, what the rewriter makes of the bytes taken.  A write
that then fails leaves the rewriter as it is, a flush that succeeds leaves nothing pending, and an
end that succeeds has delivered the whole rewritten page. -/
theorem delivers_once (r : Rewriter) (sink : Sink Reply) (cs : List Call) :
    let w := (Writer.calls { rewriter := r, sink } cs).1
    let taken := (Writer.calls { rewriter := r, sink } cs).2
    w.rewriter = (r.push taken).1 ∧
      w.sink.received ++ w.pending = sink.received ++ (r.push taken).2 ∧
      (∀ bytes f, (w.write bytes).2 = .error f → (w.write bytes).1.rewriter = w.rewriter) ∧
      (w.flush.2 = none → w.flush.1.pending = []) ∧
      (∀ stats, w.finish.2 = .ok stats →
        w.finish.1.sink.received = sink.received ++ (r.complete [taken]).2 ∧
          stats = (r.complete [taken]).1) := by
  intro w taken
  have start : Delivers r sink.received [] { rewriter := r, sink } :=
    ⟨by rw [Rewriter.push_nil], by rw [Rewriter.push_nil]⟩
  have h : Delivers r sink.received taken w := calls_delivers start cs
  refine ⟨h.rewriter, h.received, fun bytes f hf => ((write_spec h bytes).1 f hf).1, flush_pending,
    fun stats hs => ?_⟩
  obtain ⟨hreceived, -, hstats⟩ := finish_spec h hs
  exact ⟨hreceived, hstats⟩

/-! ### A whole page -/

theorem writeAll_delivers (h : Delivers r before taken w) {bytes : Bytes}
    (hw : (w.writeAll bytes).2 = none) :
    Delivers r before (taken ++ bytes) (w.writeAll bytes).1 := by
  unfold writeAll at hw ⊢
  split
  case isTrue e =>
    rw [List.isEmpty_iff.1 e, List.append_nil]
    exact h
  case isFalse e =>
    have hok := (write_spec h bytes).2
    rw [if_neg e] at hw
    rcases hwrite : w.write bytes with ⟨next, n | f⟩
    · simp only [hwrite] at hw
      cases hw
    · simp only [hwrite, Except.ok.injEq, forall_eq'] at hok
      exact hok.2

/-- A page that is written without a failure has been delivered, rewritten, as a whole. -/
theorem writePage_ok (h : Delivers r before taken w) {pieces : List Bytes} {stats : Rewrite.Stats}
    (hw : (w.writePage pieces).2 = .ok stats) :
    (w.writePage pieces).1.sink.received = before ++ (r.complete [taken ++ pieces.flatten]).2 ∧
      stats = (r.complete [taken ++ pieces.flatten]).1 := by
  induction pieces generalizing w taken with
  | nil =>
      rw [List.flatten_nil, List.append_nil]
      obtain ⟨hreceived, -, hstats⟩ := finish_spec h hw
      exact ⟨hreceived, hstats⟩
  | cons piece pieces ih =>
      have hall : (w.writeAll piece).2 = none →
          Delivers r before (taken ++ piece) (w.writeAll piece).1 := writeAll_delivers h
      rcases hpiece : w.writeAll piece with ⟨next, _ | f⟩
      · simp only [hpiece, forall_const] at hall
        simp only [writePage, hpiece] at hw ⊢
        rw [List.flatten_cons, ← List.append_assoc]
        exact ih hall hw
      · simp only [writePage, hpiece] at hw
        cases hw

theorem drain_calm (h : w.sink.Calm) : w.drain.2 = none ∧ w.drain.1.sink.Calm := by
  obtain ⟨hfailure, hreplies⟩ := deliver_calm h.replies w.pending
  exact ⟨hfailure, hreplies, h.flushes⟩

theorem flush_calm (h : w.sink.Calm) : w.flush.2 = none := by
  obtain ⟨hnone, hcalm⟩ := drain_calm h
  rcases hd : w.drain with ⟨next, _ | f⟩
  · simp only [hd] at hcalm
    simp only [Writer.flush, hd]
    exact Sink.flush_calm hcalm.flushes
  · simp only [hd] at hnone
    cases hnone

theorem write_calm (h : w.sink.Calm) (bytes : Bytes) :
    (∃ n, (w.write bytes).2 = .ok n) ∧ (w.write bytes).1.sink.Calm := by
  obtain ⟨hnone, hcalm⟩ := drain_calm h
  rcases hd : w.drain with ⟨next, _ | f⟩
  · simp only [hd] at hcalm
    simp only [Writer.write, hd]
    let fed : Writer :=
      { next with
        rewriter := (next.rewriter.push bytes).1
        pending := next.pending ++ (next.rewriter.push bytes).2 }
    have hfed : fed.sink.Calm := hcalm
    exact ⟨⟨_, rfl⟩, (drain_calm hfed).2⟩
  · simp only [hd] at hnone
    cases hnone

/-- A sink that takes all lets a page be written as a whole. -/
theorem writePage_calm (h : w.sink.Calm) (pieces : List Bytes) :
    ∃ stats, (w.writePage pieces).2 = .ok stats := by
  induction pieces generalizing w with
  | nil =>
      obtain ⟨hnone, hcalm⟩ := drain_calm h
      rcases hd : w.drain with ⟨next, _ | f⟩
      · simp only [hd] at hcalm
        let last : Writer := { next with pending := next.pending ++ next.rewriter.finish.2 }
        have hlast : last.flush.2 = none := flush_calm hcalm
        rcases hl : last.flush with ⟨done, _ | f⟩
        · simp only [last] at hl
          simp only [writePage, Writer.finish, hd, hl]
          exact ⟨_, rfl⟩
        · simp only [hl] at hlast
          cases hlast
      · simp only [hd] at hnone
        cases hnone
  | cons piece pieces ih =>
      by_cases hpiece : piece.isEmpty = true
      · simp only [writePage, writeAll, hpiece, if_true]
        exact ih h
      · obtain ⟨⟨n, hn⟩, hcalm⟩ := write_calm h piece
        rcases hw : w.write piece with ⟨next, n | f⟩
        · simp only [hw] at hn
          cases hn
        · simp only [hw] at hcalm
          simp only [writePage, writeAll, if_neg hpiece, hw]
          exact ih hcalm

end Writer

end StyleSieve.Transfer
