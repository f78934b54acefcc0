import StyleSieve.Proofs.Rewrite.Chunks
import StyleSieve.Proofs.Transfer.Writer
import StyleSieve.Transfer.Pipe

/-!
# A pipe delivers the rewritten page

What a pipe reads, up to the end of the page, is one page (`Reading.page`); how it comes in pieces
does not matter.  A pipe that ends well has sent the whole of it, rewritten.

* `sendTo_spec`: what is sent to an outlet is taken or left, in order.
* `pipe_done`: what a pipe has delivered when it ends well.
* `pipe_calm`: it ends well between a reader and an outlet without failures.
-/

namespace StyleSieve.Transfer

open Rewrite (Rewriter Stats)

/-! ### Sending to an outlet -/

theorem Sink.received_record {ρ : Type} (s : Sink ρ) (e : Event) :
    (s.record e).received = s.received ++ Event.written [e] := by
  simp only [received, events, record, List.reverse_cons, Event.written_append]

theorem received_wrote (outlet : Outlet) (bytes : Bytes) :
    (outlet.record (.wrote bytes)).received = outlet.received ++ bytes := by
  rw [Sink.received_record]
  simp [Event.written]

theorem received_of_silent (outlet : Outlet) {e : Event} (h : Event.written [e] = []) :
    (outlet.record e).received = outlet.received := by
  rw [Sink.received_record, h, List.append_nil]

/-- What is sent is taken or left, in order; where all goes well nothing is left. -/
theorem sendTo_spec (outlet : Outlet) (replies : List (Option Reply)) (bytes : Bytes) :
    ∃ left, (sendTo outlet replies bytes).1.received ++ left = outlet.received ++ bytes ∧
      ((sendTo outlet replies bytes).2 = .done () → left = []) := by
  fun_induction sendTo outlet replies bytes with
  | case1 outlet replies => exact ⟨[], rfl, fun _ => rfl⟩
  | case2 outlet bytes =>
      refine ⟨[], ?_, fun _ => rfl⟩
      rw [List.append_nil, received_wrote]
      rfl
  | case3 outlet replies bytes => exact ⟨bytes, rfl, fun h => by cases h⟩  -- never ready
  | case4 outlet replies bytes =>
      refine ⟨[], ?_, fun _ => rfl⟩
      rw [List.append_nil, received_wrote]
      rfl
  | case5 outlet replies bytes =>
      -- nothing is taken, which is a failure
      refine ⟨bytes, ?_, fun h => by cases h⟩
      rw [received_of_silent _ rfl]
      rfl
  | case6 outlet most replies bytes _ _ ih =>
      -- some bytes are taken, and the others sent again
      obtain ⟨left, hreceived, hdone⟩ := ih
      refine ⟨left, ?_, hdone⟩
      rw [hreceived, received_wrote, List.append_assoc, List.take_append_drop]
  | case7 outlet f replies bytes =>
      refine ⟨bytes, ?_, fun h => by cases h⟩
      rw [received_of_silent _ rfl]
      rfl

/-- What is sent last has been taken where all goes well. -/
theorem sendLast_done (outlet : Outlet) (bytes : Bytes)
    (h : (outlet.sendLast bytes).2 = .done ()) :
    (outlet.sendLast bytes).1.received = outlet.received ++ bytes := by
  obtain ⟨left, hreceived, hdone⟩ := sendTo_spec outlet outlet.replies bytes
  unfold Sink.sendLast Sink.send at h ⊢
  rcases hs : sendTo outlet outlet.replies bytes with ⟨sent, ⟨⟩ | f | _⟩
  · simp only [hs, forall_const] at hreceived hdone
    rw [hdone, List.append_nil] at hreceived
    have hflush := sent.received_flush
    rcases hf : sent.flush with ⟨flushed, _ | f⟩
    · simp only [hf] at hflush
      simp only [hf]
      rw [hflush, hreceived]
    · simp only [hs, hf] at h
      cases h
  · simp only [hs] at h
    cases h
  · simp only [hs] at h
    cases h

/-! ### A page in readings -/

/-- The page that some readings give: all pieces up to the end, and none behind a failure that is
not passed over. -/
def Reading.page : List Reading → Bytes
  | [] => []
  | .piece [] :: _ => []
  | .piece bytes :: rest => bytes ++ page rest
  | .fail f :: rest => if f.isTransient then page rest else []
  | .never :: _ => []

theorem endPage_done {r : Rewriter} {outlet : Outlet} {stats : Stats}
    (h : (endPage r outlet).2 = .done stats) :
    (endPage r outlet).1.received = outlet.received ++ r.finish.2 ∧ stats = r.finish.1 := by
  have hlast := sendLast_done outlet r.finish.2
  unfold endPage at h ⊢
  rcases hs : outlet.sendLast r.finish.2 with ⟨sent, ⟨⟩ | f | _⟩
  · simp only [hs, forall_const] at hlast
    simp only [hs] at h ⊢
    cases h
    exact ⟨hlast, rfl⟩
  · simp only [hs] at h
    cases h
  · simp only [hs] at h
    cases h

theorem send_done {outlet sent : Outlet} {bytes : Bytes}
    (h : outlet.send bytes = (sent, .done ())) : sent.received = outlet.received ++ bytes := by
  obtain ⟨left, hreceived, hdone⟩ := sendTo_spec outlet outlet.replies bytes
  rw [Sink.send] at h
  rw [h] at hreceived hdone
  rwa [hdone rfl, List.append_nil] at hreceived

/-- A pipe that ends well has delivered the page that it read, rewritten as a whole. -/
theorem pipe_done {r : Rewriter} {outlet : Outlet} {readings : List Reading} {stats : Stats}
    (h : (pipe r outlet readings).2 = .done stats) :
    (pipe r outlet readings).1.received =
        outlet.received ++ (r.complete [Reading.page readings]).2 ∧
      stats = (r.complete [Reading.page readings]).1 := by
  fun_induction pipe r outlet readings with
  | case1 r outlet =>
      rw [Reading.page, Rewriter.complete_nil,
        ← received_of_silent outlet (e := .read 0) rfl]
      exact endPage_done h
  | case2 r outlet rest =>
      rw [Reading.page, Rewriter.complete_nil,
        ← received_of_silent outlet (e := .read 0) rfl]
      exact endPage_done h
  | case3 r outlet bytes rest hne r' out hpush sent hsend ih =>
      -- the output for a piece is sent before the next one is read
      obtain ⟨hreceived, hstats⟩ := ih h
      have hsent := send_done hsend
      rw [received_of_silent outlet rfl] at hsent
      rw [Reading.page.eq_3 _ _ hne, Rewriter.complete_append, hpush, hreceived, hsent,
        List.append_assoc]
      exact ⟨rfl, hstats⟩
  | case4 => cases h
  | case5 => cases h
  | case6 r outlet f rest outlet' hf ih =>
      rw [Reading.page, if_pos hf, ← received_of_silent outlet (e := .readFailed f) rfl]
      exact ih h
  | case7 r outlet f rest outlet' hf =>
      unfold abandonPage at h
      split at h <;> cases h
  | case8 => cases h

/-! ### No failures -/

/-- A reply that takes something. -/
def Reply.Takes : Reply → Prop
  | .accept most => 0 < most
  | .acceptAll => True
  | .fail _ => False

/-- An outlet that takes all that is sent, if perhaps little by little. -/
structure Outlet.Calm (outlet : Outlet) : Prop where
  replies : ∀ r ∈ outlet.replies, ∃ reply, r = some reply ∧ reply.Takes
  flushes : ∀ flush ∈ outlet.flushes, flush = none

/-- A reading without a failure, but for interruptions. -/
def Reading.Calm : Reading → Prop
  | .piece _ => True
  | .fail f => f.isTransient = true
  | .never => False

theorem sendTo_calm {outlet : Outlet} {replies : List (Option Reply)}
    (hr : ∀ r ∈ replies, ∃ reply, r = some reply ∧ reply.Takes)
    (hf : ∀ flush ∈ outlet.flushes, flush = none) (bytes : Bytes) :
    Outlet.Calm (sendTo outlet replies bytes).1 ∧ (sendTo outlet replies bytes).2 = .done () := by
  fun_induction sendTo outlet replies bytes with
  | case1 outlet replies => exact ⟨⟨hr, hf⟩, rfl⟩
  | case2 outlet bytes => exact ⟨⟨hr, hf⟩, rfl⟩
  | case3 outlet replies bytes =>
      obtain ⟨reply, e, -⟩ := hr none (by simp)
      cases e
  | case4 outlet replies bytes =>
      exact ⟨⟨fun r h => hr r (List.mem_cons_of_mem _ h), hf⟩, rfl⟩
  | case5 outlet replies bytes =>
      obtain ⟨reply, e, htakes⟩ := hr (some (.accept 0)) (by simp)
      cases e
      cases htakes
  | case6 outlet most replies bytes _ _ ih =>
      exact ih (fun r h => hr r (List.mem_cons_of_mem _ h)) hf
  | case7 outlet f replies bytes =>
      obtain ⟨reply, e, htakes⟩ := hr (some (.fail f)) (by simp)
      cases e
      cases htakes

theorem Outlet.Calm.record {outlet : Outlet} (h : outlet.Calm) (e : Event) :
    Outlet.Calm (outlet.record e) :=
  ⟨h.replies, h.flushes⟩

theorem Outlet.Calm.send {outlet : Outlet} (h : outlet.Calm) (bytes : Bytes) :
    Outlet.Calm (outlet.send bytes).1 ∧ (outlet.send bytes).2 = .done () :=
  sendTo_calm h.replies h.flushes bytes

theorem endPage_calm {outlet : Outlet} (h : outlet.Calm) (r : Rewriter) :
    ∃ stats, (endPage r outlet).2 = .done stats := by
  obtain ⟨hcalm, hdone⟩ := h.send r.finish.2
  unfold endPage Sink.sendLast
  rcases hs : outlet.send r.finish.2 with ⟨sent, ending⟩
  simp only [hs] at hcalm hdone
  subst hdone
  have hflush := Sink.flush_calm hcalm.flushes
  rcases hf : sent.flush with ⟨flushed, _ | f⟩
  · simp only [hs, hf]
    exact ⟨_, rfl⟩
  · simp only [hf] at hflush
    cases hflush

/-- A pipe ends well between a reader and an outlet without failures. -/
theorem pipe_calm {outlet : Outlet} {readings : List Reading} (ho : outlet.Calm)
    (hr : ∀ reading ∈ readings, reading.Calm) (r : Rewriter) :
    ∃ stats, (pipe r outlet readings).2 = .done stats := by
  fun_induction pipe r outlet readings with
  | case1 r outlet => exact endPage_calm (ho.record _) r
  | case2 r outlet rest => exact endPage_calm (ho.record _) r
  | case3 r outlet bytes rest hne r' out hpush sent hsend ih =>
      have hs := (ho.record (.read bytes.length)).send out
      rw [hsend] at hs
      exact ih hs.1 fun reading h => hr reading (List.mem_cons_of_mem _ h)
  | case4 r outlet bytes rest hne r' out hpush sent f hsend =>
      -- a calm outlet does not fail, and is always ready
      have hs := (ho.record (.read bytes.length)).send out
      rw [hsend] at hs
      cases hs.2
  | case5 r outlet bytes rest hne r' out hpush sent hsend =>
      have hs := (ho.record (.read bytes.length)).send out
      rw [hsend] at hs
      cases hs.2
  | case6 r outlet f rest outlet' hf ih =>
      exact ih (ho.record _) fun reading h => hr reading (List.mem_cons_of_mem _ h)
  | case7 r outlet f rest outlet' hf => exact absurd (hr (.fail f) (by simp)) hf
  | case8 => exact (hr .never (by simp)).elim

/-! ### Readings of what a reader has to offer -/

/-- What a reader offers without a failure, but for interruptions. -/
def Supplied.Calm : Supplied → Prop
  | .bytes _ => True
  | .fail f => f.isTransient = true
  | .never => False

/-- The page that a reader offers, up to its end. -/
def Supplied.page : List Supplied → Bytes
  | [] => []
  | .bytes [] :: _ => []
  | .bytes given :: rest => given ++ page rest
  | .fail f :: rest => if f.isTransient then page rest else []
  | .never :: _ => []

theorem pieces_spec (more : Nat) (bytes : Bytes) :
    (pieces more bytes).flatten = bytes ∧ ∀ piece ∈ pieces more bytes, piece ≠ [] := by
  fun_induction pieces more bytes with
  | case1 => exact ⟨rfl, fun _ h => nomatch h⟩
  | case2 b bytes ih =>
      refine ⟨?_, ?_⟩
      · rw [List.flatten_cons, ih.1, List.cons_append, List.take_append_drop]
      · intro piece h
        rcases List.mem_cons.1 h with rfl | h
        · exact List.cons_ne_nil _ _
        · exact ih.2 piece h

theorem Reading.page_pieces {pieces : List Bytes} (h : ∀ piece ∈ pieces, piece ≠ [])
    (rest : List Reading) :
    Reading.page (pieces.map .piece ++ rest) = pieces.flatten ++ Reading.page rest := by
  induction pieces with
  | nil => rfl
  | cons piece pieces ih =>
      obtain ⟨hpiece, hpieces⟩ := List.forall_mem_cons.1 h
      rw [List.map_cons, List.cons_append, Reading.page.eq_3 _ _ hpiece, ih hpieces,
        List.flatten_cons, List.append_assoc]

/-- Whatever the buffer, reading gives the page that is offered. -/
theorem page_readings (buffer : Nat) (supplied : List Supplied) :
    Reading.page (readings buffer supplied) = Supplied.page supplied := by
  fun_induction Supplied.page supplied with
  | case1 => rfl
  | case2 => rfl
  | case3 given rest hne ih =>
      obtain ⟨hflat, hpieces⟩ := pieces_spec (buffer - 1) given
      have hgiven : readings buffer (.bytes given :: rest) =
          (pieces (buffer - 1) given).map .piece ++ readings buffer rest := by
        cases given with
        | nil => exact absurd rfl hne
        | cons b given => exact List.flatMap_cons
      rw [hgiven, Reading.page_pieces hpieces, hflat, ih]
  | case4 f rest hf ih =>
      rw [← ih]
      exact if_pos hf
  | case5 f rest hf => exact if_neg hf
  | case6 => rfl

theorem readings_calm {supplied : List Supplied} (h : ∀ s ∈ supplied, s.Calm) (buffer : Nat) :
    ∀ reading ∈ readings buffer supplied, reading.Calm := by
  intro reading hreading
  obtain ⟨s, hs, hmem⟩ := List.mem_flatMap.1 hreading
  have hcalm := h s hs
  cases s with
  | bytes given =>
      cases given with
      | nil => exact List.mem_singleton.1 hmem ▸ trivial
      | cons b given =>
          obtain ⟨piece, -, rfl⟩ := List.mem_map.1 hmem
          trivial
  | fail f => exact List.mem_singleton.1 hmem ▸ hcalm
  | never => exact hcalm.elim

end StyleSieve.Transfer
