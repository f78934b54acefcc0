import StyleSieve.Proofs.Transfer.Pipe

/-!
# A transfer under every schedule

What happens at the two ends of a transfer is a row of events, whatever the schedules are.  A read
comes only when all output so far has been taken, so at any moment what the sink has taken is the
start of the rewritten page, as far as it has been read.  Of failures the first that is not passed
over decides how the transfer ends.

* `Offer`: what happens while bytes are sent, from the first write to the end of a flush.
* `Underway`: what holds whenever the next read is due.
* `pipe_exact`: the events and the ending of a whole transfer (`Exact`).
-/

namespace StyleSieve.Transfer

open Rewrite (Rewriter Stats)

/-! ### Events -/

namespace Event

/-- The number of bytes that were read in some events. -/
def readLength : List Event → Nat
  | [] => 0
  | .read n :: rest => n + readLength rest
  | _ :: rest => readLength rest

/-- A read, whatever came of it. -/
def isRead : Event → Bool
  | .read _ | .readFailed _ => true
  | _ => false

/-- A write of which nothing was taken. -/
def isFailedWrite : Event → Bool
  | .wrote [] | .writeFailed _ => true
  | _ => false

/-- The failure of a write or a flush, if it is one that failed. -/
def refusal? : Event → Option Failure
  | .wrote [] => some .nothingWritten
  | .writeFailed f | .flushFailed f => some f
  | _ => none

/-- The failure of a read, unless it is passed over. -/
def breakdown? : Event → Option Failure
  | .readFailed f => if f.isTransient then none else some f
  | _ => none

/-- No failure, but for reads that are tried again. -/
def IsCalm (e : Event) : Prop := e.refusal? = none ∧ e.breakdown? = none

variable {e : Event} {es : List Event}

theorem readLength_append (a b : List Event) :
    readLength (a ++ b) = readLength a + readLength b := by
  induction a with
  | nil => exact (Nat.zero_add _).symm
  | cons e a ih =>
      cases e with
      | read n => rw [List.cons_append, readLength, readLength, ih, Nat.add_assoc]
      | readFailed | wrote | writeFailed | flushed | flushFailed =>
          rw [List.cons_append, readLength, ih, readLength] <;> rintro _ ⟨⟩

theorem written_cons (e : Event) (es : List Event) :
    written (e :: es) = written [e] ++ written es :=
  written_append [e] es

theorem readLength_of_silent (h : ∀ e ∈ es, e.isRead = false) : readLength es = 0 := by
  induction es with
  | nil => rfl
  | cons e es ih =>
      obtain ⟨he, hes⟩ := List.forall_mem_cons.1 h
      cases e with
      | read n => cases he
      | readFailed | wrote | writeFailed | flushed | flushFailed => exact ih hes

theorem written_of_isRead (h : e.isRead = true) : written [e] = [] := by
  cases e with
  | read | readFailed => rfl
  | wrote | writeFailed | flushed | flushFailed => cases h

theorem breakdown?_of_silent (h : e.isRead = false) : e.breakdown? = none := by
  cases e with
  | read | readFailed => cases h
  | wrote | writeFailed | flushed | flushFailed => rfl

theorem refusal?_wrote {bytes : Bytes} (h : bytes ≠ []) : refusal? (.wrote bytes) = none := by
  cases bytes with
  | nil => exact absurd rfl h
  | cons b bytes => rfl

theorem isRead_of_isFailedWrite (h : e.isFailedWrite = true) : e.isRead = false := by
  cases e with
  | read | readFailed => cases h
  | wrote | writeFailed | flushed | flushFailed => rfl

/-- A write that fails takes nothing. -/
theorem written_of_isFailedWrite (h : e.isFailedWrite = true) : written [e] = [] := by
  cases e with
  | wrote taken =>
      cases taken with
      | nil => rfl
      | cons b taken => cases h
  | read | readFailed | writeFailed | flushed | flushFailed => rfl

theorem isFailedWrite_of_refusal? (h : e.refusal? = none) : e.isFailedWrite = false := by
  cases e with
  | wrote taken =>
      cases taken with
      | nil => cases h
      | cons b taken => rfl
  | writeFailed f => cases h
  | read | readFailed | flushed | flushFailed => rfl

end Event

open Event (IsCalm readLength written)

/-! ### Sending -/

/-- What happens while `bytes` are sent: some are taken, in order, and the sending stops at the
first failure.  If no write fails and the sink is ready, all are taken. -/
structure Offer (es : List Event) (bytes : Bytes) (ending : Ending Unit) : Prop where
  silent : ∀ e ∈ es, e.isRead = false
  taken : written es <+: bytes
  whole : (∀ e ∈ es, e.isFailedWrite = false) → ending ≠ .stalled → written es = bytes
  /-- Nothing follows a failure. -/
  stops : es.Pairwise fun e _ => e.refusal? = none
  failed : ∀ f, ending = .failed f ↔ ∃ e ∈ es, e.refusal? = some f

namespace Offer

variable {es : List Event} {bytes more : Bytes} {ending : Ending Unit} {e : Event} {f : Failure}

/-- Nothing happens if there is nothing to send. -/
theorem nothing : Offer [] [] (.done ()) where
  silent _ h := nomatch h
  taken := List.nil_prefix
  whole _ _ := rfl
  stops := .nil
  failed f := by simp

/-- Nothing happens if the sink is never ready. -/
theorem stalled (bytes : Bytes) : Offer [] bytes .stalled where
  silent _ h := nomatch h
  taken := List.nil_prefix
  whole _ hready := absurd rfl hready
  stops := .nil
  failed f := by simp

/-- Some bytes are taken. -/
theorem wrote (h : Offer es more ending) (hbytes : bytes ≠ []) :
    Offer (.wrote bytes :: es) (bytes ++ more) ending where
  silent := List.forall_mem_cons.2 ⟨rfl, h.silent⟩
  taken := by
    rw [Event.written_cons]
    simpa [written] using h.taken
  whole hwrites hready := by
    rw [Event.written_cons, h.whole (List.forall_mem_cons.1 hwrites).2 hready]
    simp [written]
  stops := List.pairwise_cons.2 ⟨fun _ _ => Event.refusal?_wrote hbytes, h.stops⟩
  failed f := by
    rw [h.failed]
    simp [Event.refusal?_wrote hbytes]

/-- A write fails. -/
theorem fail (bytes : Bytes) (h : e.isFailedWrite = true) (hf : e.refusal? = some f) :
    Offer [e] bytes (.failed f) where
  silent := List.forall_mem_singleton.2 (Event.isRead_of_isFailedWrite h)
  taken := by
    rw [Event.written_of_isFailedWrite h]
    exact List.nil_prefix
  whole hwrites := by
    rw [List.forall_mem_singleton, h] at hwrites
    cases hwrites
  stops := List.pairwise_singleton _ _
  failed f' := by simp [hf]

theorem calm (h : Offer es bytes (.done ())) : ∀ e ∈ es, e.refusal? = none := by
  intro e he
  cases hf : e.refusal? with
  | none => rfl
  | some f => cases (h.failed f).2 ⟨e, he, hf⟩

theorem done (h : Offer es bytes (.done ())) : written es = bytes :=
  h.whole (fun e he => Event.isFailedWrite_of_refusal? (h.calm e he)) fun h => nomatch h

/-- A call that writes nothing comes after all is taken. -/
theorem written_snoc (h : Offer es bytes (.done ())) (hwritten : written [e] = []) :
    written (es ++ [e]) = bytes := by
  rw [Event.written_append, h.done, hwritten, List.append_nil]

/-- All is taken, and then the sink is flushed or fails to. -/
theorem flush (h : Offer es bytes (.done ())) (hread : e.isRead = false)
    (hwritten : written [e] = []) (hending : ∀ f, ending = .failed f ↔ e.refusal? = some f) :
    Offer (es ++ [e]) bytes ending where
  silent := List.forall_mem_append.2 ⟨h.silent, List.forall_mem_singleton.2 hread⟩
  taken := h.written_snoc hwritten ▸ List.prefix_rfl
  whole _ _ := h.written_snoc hwritten
  stops := List.pairwise_append.2
    ⟨h.stops, List.pairwise_singleton _ _, fun e he _ _ => h.calm e he⟩
  failed f := by
    rw [hending]
    constructor
    · exact fun hf => ⟨e, List.mem_append_right _ (List.mem_singleton_self e), hf⟩
    · rintro ⟨e', he', hf⟩
      rcases List.mem_append.1 he' with he' | he'
      · rw [h.calm e' he'] at hf
        cases hf
      · exact List.mem_singleton.1 he' ▸ hf

end Offer

theorem Sink.events_record {ρ : Type} (s : Sink ρ) (e : Event) :
    (s.record e).events = s.events ++ [e] := List.reverse_cons

theorem sendTo_offer (outlet : Outlet) (replies : List (Option Reply)) (bytes : Bytes) :
    ∃ es, (sendTo outlet replies bytes).1.events = outlet.events ++ es ∧
      Offer es bytes (sendTo outlet replies bytes).2 := by
  have whole {bytes : Bytes} (hbytes : bytes ≠ []) : Offer [.wrote bytes] bytes (.done ()) := by
    simpa using Offer.nothing.wrote hbytes
  fun_induction sendTo outlet replies bytes with
  | case1 outlet replies => exact ⟨[], (List.append_nil _).symm, .nothing⟩
  | case2 outlet bytes hbytes => exact ⟨[.wrote bytes], Sink.events_record .., whole hbytes⟩
  | case3 outlet replies bytes => exact ⟨[], (List.append_nil _).symm, .stalled bytes⟩
  | case4 outlet replies bytes hbytes =>
      exact ⟨[.wrote bytes], Sink.events_record .., whole hbytes⟩
  | case5 outlet replies bytes hbytes =>
      exact ⟨[.wrote []], Sink.events_record .., .fail bytes rfl rfl⟩
  | case6 outlet most replies bytes hbytes hmost ih =>
      -- some bytes are taken, and the others sent again
      obtain ⟨es, hevents, hoffer⟩ := ih
      refine ⟨.wrote (bytes.take most) :: es, ?_, ?_⟩
      · rw [hevents, Sink.events_record, List.append_assoc]
        rfl
      · have htake : bytes.take most ≠ [] := fun e => (List.take_eq_nil_iff.1 e).elim hmost hbytes
        simpa only [List.take_append_drop] using hoffer.wrote htake
  | case7 outlet f replies bytes =>
      exact ⟨[.writeFailed f], Sink.events_record .., .fail bytes rfl rfl⟩

theorem send_offer (outlet : Outlet) (bytes : Bytes) :
    ∃ es, (outlet.send bytes).1.events = outlet.events ++ es ∧
      Offer es bytes (outlet.send bytes).2 :=
  sendTo_offer outlet outlet.replies bytes

theorem sendLast_offer (outlet : Outlet) (bytes : Bytes) :
    ∃ es, (outlet.sendLast bytes).1.events = outlet.events ++ es ∧
      Offer es bytes (outlet.sendLast bytes).2 := by
  obtain ⟨es, hevents, hoffer⟩ := send_offer outlet bytes
  unfold Sink.sendLast
  rcases hs : outlet.send bytes with ⟨sent, ⟨⟩ | f | _⟩
  · rw [hs] at hevents hoffer
    have hflush {e : Event} {flushes : List (Option Failure)} :
        (Sink.record { sent with flushes } e).events = outlet.events ++ (es ++ [e]) := by
      rw [Sink.events_record, ← List.append_assoc, ← hevents]
      rfl
    rcases hf : sent.flushes with _ | ⟨_ | f, flushes⟩
    all_goals simp only [Sink.flush, hf]
    · exact ⟨_, hflush, hoffer.flush rfl rfl (by simp [Event.refusal?])⟩
    · exact ⟨_, hflush, hoffer.flush rfl rfl (by simp [Event.refusal?])⟩
    · exact ⟨_, hflush, hoffer.flush rfl rfl (by simp [Event.refusal?])⟩
  · rw [hs] at hevents hoffer
    exact ⟨es, hevents, hoffer⟩
  · rw [hs] at hevents hoffer
    exact ⟨es, hevents, hoffer⟩

/-! ### Between two reads -/

/-- At every moment of some events, what the sink has taken is the start of what the page makes as
far as it has been read; and at a read it is all that can be sent for what was read before. -/
structure Moments (r : Rewriter) (page : Bytes) (events : List Event) : Prop where
  waits : ∀ before e, before ++ [e] <+: events → e.isRead = true →
    written before = (r.push (page.take (readLength before))).2
  leads : ∀ before, before <+: events →
    written before <+: (r.complete [page.take (readLength before)]).2

namespace Moments

variable {r : Rewriter} {page : Bytes} {events es : List Event} {e : Event}

theorem nil (r : Rewriter) (page : Bytes) : Moments r page [] where
  waits before e h := by simp at h
  leads before h := by
    rw [List.prefix_nil.1 h]
    exact List.nil_prefix

theorem snoc (h : Moments r page events)
    (hread : e.isRead = true → written events = (r.push (page.take (readLength events))).2)
    (hlead : written (events ++ [e]) <+:
      (r.complete [page.take (readLength (events ++ [e]))]).2) :
    Moments r page (events ++ [e]) where
  waits before e' hbefore he' := by
    rcases List.prefix_concat_iff.1 hbefore with hlast | hearlier
    · obtain ⟨rfl, he⟩ := List.append_inj' hlast rfl
      exact hread (List.singleton_inj.1 he ▸ he')
    · exact h.waits before e' hearlier he'
  leads before hbefore := by
    rcases List.prefix_concat_iff.1 hbefore with rfl | hearlier
    · exact hlead
    · exact h.leads before hearlier

/-- No reads follow. -/
theorem append (h : Moments r page events) (hsilent : ∀ e ∈ es, e.isRead = false)
    (hlead : written events ++ written es <+:
      (r.complete [page.take (readLength events)]).2) :
    Moments r page (events ++ es) := by
  induction es generalizing events with
  | nil => exact (List.append_nil events).symm ▸ h
  | cons e es ih =>
      obtain ⟨he, hes⟩ := List.forall_mem_cons.1 hsilent
      have hlength : readLength (events ++ [e]) = readLength events := by
        rw [Event.readLength_append,
          Event.readLength_of_silent (List.forall_mem_singleton.2 he), Nat.add_zero]
      rw [Event.written_cons, ← List.append_assoc, ← Event.written_append] at hlead
      rw [List.append_cons]
      refine ih (h.snoc (fun hread => ?_) ?_) hes ?_
      · rw [he] at hread
        cases hread
      · rw [hlength]
        exact (List.prefix_append _ _).trans hlead
      · rwa [hlength]

end Moments

/-- The next read is due.  So far `read` has been read of the page, and all that can be sent for it
has been taken. -/
structure Underway (r₀ : Rewriter) (page read : Bytes) (r : Rewriter) (events : List Event)
    (rest : List Reading) : Prop where
  source : page = read ++ Reading.page rest
  length : readLength events = read.length
  rewriter : r = (r₀.push read).1
  output : written events = (r₀.push read).2
  calm : ∀ e ∈ events, e.IsCalm
  moments : Moments r₀ page events

/-- What a transfer of `page` by `r` may do, in events, and how it ends then. -/
structure Exact (r : Rewriter) (page : Bytes) (events : List Event) (ending : Ending Stats) :
    Prop where
  reads : readLength events ≤ page.length
  moments : Moments r page events
  done : ∀ stats, ending = .done stats → readLength events = page.length ∧
    written events = (r.complete [page]).2 ∧ stats = (r.complete [page]).1
  broken : ∀ e ∈ events, ∀ f, e.breakdown? = some f →
    readLength events = page.length ∧ (ending = .failed f ∨ ending = .stalled) ∧
      (ending ≠ .stalled → (∀ e ∈ events, e.isFailedWrite = false) →
        written events = (r.complete [page]).2)
  refused : ∀ before e after f, events = before ++ e :: after → e.refusal? = some f →
    (∀ b ∈ before, b.breakdown? = none) → after = [] ∧ ending = .failed f
  unhindered : (∀ e ∈ events, e.IsCalm) → ending ≠ .stalled → ∃ stats, ending = .done stats

variable {r₀ r : Rewriter} {page read more out : Bytes} {events es : List Event} {e : Event}
  {rest rest' : List Reading} {sent : Ending Unit} {ending : Ending Stats}

theorem underway_start (r : Rewriter) (readings : List Reading) :
    Underway r (Reading.page readings) [] r [] readings where
  source := rfl
  length := rfl
  rewriter := by rw [Rewriter.push_nil]
  output := by rw [Rewriter.push_nil]; rfl
  calm _ h := nomatch h
  moments := .nil ..

/-- What a transfer that cannot go on reading has done. -/
theorem Underway.stalled (h : Underway r₀ page read r events rest) :
    Exact r₀ page events .stalled where
  reads := by
    rw [h.length, h.source, List.length_append]
    exact Nat.le_add_right _ _
  moments := h.moments
  done _ h := nomatch h
  broken e he f hf := by
    rw [(h.calm e he).2] at hf
    cases hf
  refused before e after f hes hf _ := by
    rw [(h.calm e (by simp [hes])).1] at hf
    cases hf
  unhindered _ h := absurd rfl h

/-- A read gives some bytes, or none. -/
theorem Underway.readMore (h : Underway r₀ page read r events rest) (he : e.isRead = true)
    (hmore : more <+: Reading.page rest) (hlength : readLength [e] = more.length) :
    readLength (events ++ [e]) = (read ++ more).length ∧
      page.take (readLength (events ++ [e])) = read ++ more ∧ Moments r₀ page (events ++ [e]) := by
  have hlen : readLength (events ++ [e]) = (read ++ more).length := by
    rw [Event.readLength_append, h.length, hlength, List.length_append]
  have htake : page.take (read ++ more).length = read ++ more := by
    obtain ⟨rest, hrest⟩ := hmore
    rw [h.source, ← hrest, ← List.append_assoc, List.take_left]
  refine ⟨hlen, hlen ▸ htake, h.moments.snoc (fun _ => ?_) ?_⟩
  · rw [h.length, h.output, h.source, List.take_left]
  · rw [hlen, htake, Event.written_append, Event.written_of_isRead he, h.output, List.append_nil,
      Rewriter.complete_append]
    exact List.prefix_append _ _

/-- Behind a read, bytes are sent that the page leads to. -/
theorem Underway.moments_offer (h : Underway r₀ page read r events rest) (he : e.isRead = true)
    (hmore : more <+: Reading.page rest) (hlength : readLength [e] = more.length)
    (hoffer : Offer es out sent)
    (hout : (r₀.push read).2 ++ out <+: (r₀.complete [read ++ more]).2) :
    readLength (events ++ e :: es) = (read ++ more).length ∧
      Moments r₀ page (events ++ e :: es) := by
  obtain ⟨hlen, htake, hmoments⟩ := h.readMore he hmore hlength
  rw [List.append_cons]
  refine ⟨?_, hmoments.append hoffer.silent ?_⟩
  · rw [Event.readLength_append, hlen, Event.readLength_of_silent hoffer.silent, Nat.add_zero]
  · rw [htake, Event.written_append, Event.written_of_isRead he, List.append_nil, h.output]
    exact ((List.prefix_append_right_inj _).2 hoffer.taken).trans hout

/-- Where the past holds no failure, a failure comes behind it. -/
theorem split_behind {past before after : List Event} {f : Failure}
    (hpast : ∀ e ∈ past, e.refusal? = none) (h : past ++ es = before ++ e :: after)
    (hf : e.refusal? = some f) : ∃ mid, before = past ++ mid ∧ es = mid ++ e :: after := by
  rcases List.append_eq_append_iff.1 h with ⟨mid, rfl, hes⟩ | ⟨mid, rfl, hmid⟩
  · exact ⟨mid, rfl, hes⟩
  · cases mid with
    | nil => exact ⟨[], by simp, hmid.symm⟩
    | cons x mid =>
        obtain ⟨rfl, -⟩ := List.cons.inj hmid
        rw [hpast e (by simp)] at hf
        cases hf

/-- A failure ends the sending. -/
theorem Offer.ends {mid after : List Event} {f : Failure} (h : Offer es out sent)
    (hes : es = mid ++ e :: after) (hf : e.refusal? = some f) : after = [] ∧ sent = .failed f := by
  refine ⟨?_, (h.failed f).2 ⟨e, by simp [hes], hf⟩⟩
  have hstops := h.stops
  rw [hes, List.pairwise_append, List.pairwise_cons] at hstops
  refine List.eq_nil_iff_forall_not_mem.2 fun a ha => ?_
  rw [hstops.2.1.1 a ha] at hf
  cases hf

/-- The ending of a transfer that ends as sending does. -/
def Ending.withValue {α : Type} (value : α) : Ending Unit → Ending α
  | .done () => .done value
  | .failed f => .failed f
  | .stalled => .stalled

/-- Behind a read that gave something, or the end of the page, the transfer ends as sending does. -/
theorem Underway.exact_sent {stats : Stats} (h : Underway r₀ page read r events rest)
    (he : e.isRead = true) (hmore : more <+: Reading.page rest)
    (hlength : readLength [e] = more.length) (hoffer : Offer es out sent) (hcalm : e.IsCalm)
    (hout : (r₀.push read).2 ++ out <+: (r₀.complete [read ++ more]).2)
    (hdone : sent = .done () → read ++ more = page ∧
      (r₀.push read).2 ++ out = (r₀.complete [page]).2 ∧ stats = (r₀.complete [page]).1) :
    Exact r₀ page (events ++ e :: es) (sent.withValue stats) := by
  obtain ⟨hlen, hmoments⟩ := h.moments_offer he hmore hlength hoffer hout
  have hwritten : written (events ++ e :: es) = (r₀.push read).2 ++ written es := by
    rw [Event.written_append, Event.written_cons, Event.written_of_isRead he, h.output,
      List.nil_append]
  have hbreakdown : ∀ x ∈ events ++ e :: es, x.breakdown? = none :=
    List.forall_mem_append.2 ⟨fun x hx => (h.calm x hx).2, List.forall_mem_cons.2 ⟨hcalm.2,
      fun x hx => Event.breakdown?_of_silent (hoffer.silent x hx)⟩⟩
  refine ⟨?_, hmoments, fun stats' hs => ?_, fun x hx f hf => ?_,
    fun before x after f hes hf _ => ?_, fun hall hready => ?_⟩
  · rw [hlen, h.source]
    exact ((List.prefix_append_right_inj _).2 hmore).length_le
  · -- all has been sent
    match sent, hs with
    | .done (), rfl =>
      obtain ⟨hpage, hcomplete, hstats⟩ := hdone rfl
      rw [hwritten, hoffer.done, hlen, hpage]
      exact ⟨rfl, hcomplete, hstats⟩
  · rw [hbreakdown x hx] at hf
    cases hf
  · -- the first failure is the last event
    have hpast : ∀ x ∈ events ++ [e], x.refusal? = none :=
      List.forall_mem_append.2 ⟨fun x hx => (h.calm x hx).1, List.forall_mem_singleton.2 hcalm.1⟩
    rw [List.append_cons] at hes
    obtain ⟨mid, -, hmid⟩ := split_behind hpast hes hf
    obtain ⟨rfl, rfl⟩ := hoffer.ends hmid hf
    exact ⟨rfl, rfl⟩
  · match sent with
    | .done () => exact ⟨stats, rfl⟩
    | .failed f =>
      obtain ⟨x, hx, hf⟩ := (hoffer.failed f).1 rfl
      rw [(hall x (by simp [hx])).1] at hf
      cases hf
    | .stalled => exact absurd rfl hready

/-- Behind a read that failed the page is ended, and the failure of the read is given back. -/
theorem Underway.exact_broken {f : Failure} (h : Underway r₀ page read r events rest)
    (hf : f.isTransient = false) (hend : Reading.page rest = []) (hoffer : Offer es r.finish.2 sent)
    (hending : ending = .failed f ∨ ending = .stalled)
    (hready : sent = .stalled → ending = .stalled) :
    Exact r₀ page (events ++ .readFailed f :: es) ending := by
  have hpage : read = page := by rw [h.source, hend, List.append_nil]
  have hcomplete : (r₀.push read).2 ++ r.finish.2 = (r₀.complete [page]).2 := by
    rw [Rewriter.complete_eq, List.flatten_singleton, h.rewriter, hpage]
  have hall : (r₀.push read).2 ++ r.finish.2 = (r₀.complete [read ++ []]).2 := by
    rw [hcomplete, List.append_nil, hpage]
  obtain ⟨hlen, hmoments⟩ := h.moments_offer (e := .readFailed f) rfl List.nil_prefix
    rfl hoffer (hall ▸ List.prefix_rfl)
  rw [List.append_nil, hpage] at hlen
  refine ⟨Nat.le_of_eq hlen, hmoments, fun stats hs => ?_,
    fun x hx f' hf' => ⟨hlen, ?_, fun hsome hwrites => ?_⟩,
    fun before x after f' hes hf' hnone => ?_, fun hall => ?_⟩
  · rcases hending with rfl | rfl
    all_goals cases hs
  · -- there is no other read that failed
    have hx' : x = .readFailed f := by
      rcases List.mem_append.1 hx with hx | hx
      · rw [(h.calm x hx).2] at hf'
        cases hf'
      · rcases List.mem_cons.1 hx with rfl | hx
        · rfl
        · rw [Event.breakdown?_of_silent (hoffer.silent x hx)] at hf'
          cases hf'
    rw [hx', Event.breakdown?, if_neg (by simp [hf])] at hf'
    cases hf'
    exact hending
  · rw [Event.written_append, Event.written_cons, h.output, ← hcomplete,
      hoffer.whole (fun e he => hwrites e (by simp [he])) fun hs => hsome (hready hs)]
    rfl
  · -- a failure behind the read that failed
    have hpast : ∀ x ∈ events ++ [.readFailed f], x.refusal? = none :=
      List.forall_mem_append.2 ⟨fun x hx => (h.calm x hx).1, List.forall_mem_singleton.2 rfl⟩
    rw [List.append_cons] at hes
    obtain ⟨mid, rfl, -⟩ := split_behind hpast hes hf'
    have hbroken := hnone (.readFailed f) (by simp)
    rw [Event.breakdown?, if_neg (by simp [hf])] at hbroken
    cases hbroken
  · have hbroken := (hall (.readFailed f) (by simp)).2
    rw [Event.breakdown?, if_neg (by simp [hf])] at hbroken
    cases hbroken

/-! ### A whole transfer -/

theorem endPage_offer (r : Rewriter) (outlet : Outlet) :
    ∃ es sent, (endPage r outlet).1.events = outlet.events ++ es ∧ Offer es r.finish.2 sent ∧
      (endPage r outlet).2 = sent.withValue r.finish.1 := by
  obtain ⟨es, hevents, hoffer⟩ := sendLast_offer outlet r.finish.2
  refine ⟨es, _, ?_, hoffer, ?_⟩
  all_goals
    unfold endPage
    rcases hs : outlet.sendLast r.finish.2 with ⟨sent, ⟨⟩ | f | _⟩
  · simpa only [hs] using hevents
  · simpa only [hs] using hevents
  · simpa only [hs] using hevents
  all_goals simp only [hs, Ending.withValue]

/-- The page ends. -/
theorem Underway.exact_end {outlet : Outlet} (h : Underway r₀ page read r outlet.events rest)
    (hend : Reading.page rest = []) :
    Exact r₀ page (endPage r (outlet.record (.read 0))).1.events
      (endPage r (outlet.record (.read 0))).2 := by
  have hpage : read = page := by rw [h.source, hend, List.append_nil]
  have hcomplete : (r₀.push read).2 ++ r.finish.2 = (r₀.complete [page]).2 := by
    rw [Rewriter.complete_eq, List.flatten_singleton, h.rewriter, hpage]
  have hstats : r.finish.1 = (r₀.complete [page]).1 := by
    rw [Rewriter.complete_eq, List.flatten_singleton, h.rewriter, hpage]
  obtain ⟨es, sent, hevents, hoffer, hending⟩ := endPage_offer r (outlet.record (.read 0))
  rw [hevents, hending, Sink.events_record, ← List.append_cons]
  have hall : (r₀.push read).2 ++ r.finish.2 = (r₀.complete [read ++ []]).2 := by
    rw [hcomplete, List.append_nil, hpage]
  refine h.exact_sent rfl List.nil_prefix rfl hoffer ⟨rfl, rfl⟩ (hall ▸ List.prefix_rfl) fun _ => ?_
  rw [List.append_nil]
  exact ⟨hpage, hcomplete, hstats⟩

/-- One more piece. -/
theorem Underway.prefix_push {bytes : Bytes} {r' : Rewriter}
    (h : Underway r₀ page read r events rest) (hpush : r.push bytes = (r', out)) :
    r₀.push (read ++ bytes) = (r', (r₀.push read).2 ++ out) ∧
      (r₀.push read).2 ++ out <+: (r₀.complete [read ++ bytes]).2 := by
  have hwhole : r₀.push (read ++ bytes) = (r', (r₀.push read).2 ++ out) := by
    rw [Rewriter.push_append, ← h.rewriter, hpush]
  rw [Rewriter.complete_eq, List.flatten_singleton, hwhole]
  exact ⟨rfl, List.prefix_append _ _⟩

/-- A piece of the page is the start of what comes. -/
theorem Reading.prefix_page {bytes : Bytes} (hne : bytes ≠ []) (rest : List Reading) :
    bytes <+: Reading.page (.piece bytes :: rest) := by
  rw [Reading.page.eq_3 _ _ hne]
  exact List.prefix_append _ _

/-- A piece is read and its output taken, so the next read is due. -/
theorem Underway.next {outlet outlet' : Outlet} {bytes : Bytes} {r' : Rewriter}
    (h : Underway r₀ page read r outlet.events (.piece bytes :: rest)) (hne : bytes ≠ [])
    (hpush : r.push bytes = (r', out))
    (hsend : (outlet.record (.read bytes.length)).send out = (outlet', .done ())) :
    Underway r₀ page (read ++ bytes) r' outlet'.events rest := by
  obtain ⟨hwhole, hlead⟩ := h.prefix_push hpush
  obtain ⟨es, hevents, hoffer⟩ := send_offer (outlet.record (.read bytes.length)) out
  rw [hsend] at hevents hoffer
  rw [Sink.events_record, ← List.append_cons] at hevents
  obtain ⟨hlength, hmoments⟩ := h.moments_offer (e := .read bytes.length) rfl
    (Reading.prefix_page hne rest) rfl hoffer hlead
  rw [hevents]
  refine ⟨?_, hlength, ?_, ?_, ?_, hmoments⟩
  · rw [h.source, Reading.page.eq_3 _ _ hne, List.append_assoc]
  · rw [hwhole]
  · rw [Event.written_append, Event.written_cons, h.output, hoffer.done, hwhole]
    rfl
  · exact List.forall_mem_append.2 ⟨h.calm, List.forall_mem_cons.2 ⟨⟨rfl, rfl⟩, fun e he =>
      ⟨hoffer.calm e he, Event.breakdown?_of_silent (hoffer.silent e he)⟩⟩⟩

/-- A piece is read and not all of its output taken. -/
theorem Underway.exact_stopped {outlet outlet' : Outlet} {bytes : Bytes} {r' : Rewriter}
    (h : Underway r₀ page read r outlet.events (.piece bytes :: rest)) (hne : bytes ≠ [])
    (hpush : r.push bytes = (r', out))
    (hsend : (outlet.record (.read bytes.length)).send out = (outlet', sent))
    (hstop : sent ≠ .done ()) (stats : Stats) :
    Exact r₀ page outlet'.events (sent.withValue stats) := by
  obtain ⟨-, hlead⟩ := h.prefix_push hpush
  obtain ⟨es, hevents, hoffer⟩ := send_offer (outlet.record (.read bytes.length)) out
  rw [hsend] at hevents hoffer
  rw [Sink.events_record, ← List.append_cons] at hevents
  rw [hevents]
  exact h.exact_sent rfl (Reading.prefix_page hne rest) rfl hoffer ⟨rfl, rfl⟩ hlead
    fun hdone => absurd hdone hstop

/-- A read is tried again. -/
theorem Underway.again {outlet : Outlet} {f : Failure} (hf : f.isTransient = true)
    (h : Underway r₀ page read r outlet.events (.fail f :: rest)) :
    Underway r₀ page read r (outlet.record (.readFailed f)).events rest := by
  have hrest : Reading.page (.fail f :: rest) = Reading.page rest := if_pos hf
  obtain ⟨hlength, -, hmoments⟩ := h.readMore (e := .readFailed f) rfl List.nil_prefix rfl
  rw [List.append_nil] at hlength
  rw [Sink.events_record]
  refine ⟨hrest ▸ h.source, hlength, h.rewriter, ?_, ?_, hmoments⟩
  · rw [Event.written_append, h.output]
    exact List.append_nil _
  · exact List.forall_mem_append.2 ⟨h.calm, List.forall_mem_singleton.2 ⟨rfl, if_pos hf⟩⟩

/-- A read fails for good. -/
theorem Underway.exact_abandoned {outlet : Outlet} {f : Failure} (hf : f.isTransient = false)
    (h : Underway r₀ page read r outlet.events (.fail f :: rest)) :
    Exact r₀ page (abandonPage r (outlet.record (.readFailed f)) f).1.events
      (abandonPage r (outlet.record (.readFailed f)) f).2 := by
  have hend : Reading.page (.fail f :: rest) = [] := if_neg (by simp [hf])
  obtain ⟨es, hevents, hoffer⟩ := sendLast_offer (outlet.record (.readFailed f)) r.finish.2
  rw [Sink.events_record, ← List.append_cons] at hevents
  unfold abandonPage
  rcases hs : (outlet.record (.readFailed f)).sendLast r.finish.2 with ⟨sent, ⟨⟩ | f' | _⟩
  all_goals
    rw [hs] at hevents hoffer
    simp only [hevents]
  · exact h.exact_broken hf hend hoffer (.inl rfl) fun h => nomatch h
  · exact h.exact_broken hf hend hoffer (.inl rfl) fun h => nomatch h
  · exact h.exact_broken hf hend hoffer (.inr rfl) fun _ => rfl

theorem pipe_underway {outlet : Outlet} {readings : List Reading}
    (h : ∃ read, Underway r₀ page read r outlet.events readings) :
    Exact r₀ page (pipe r outlet readings).1.events (pipe r outlet readings).2 := by
  fun_induction pipe r outlet readings with
  | case1 r outlet =>
      obtain ⟨read, h⟩ := h
      exact h.exact_end rfl
  | case2 r outlet rest =>
      obtain ⟨read, h⟩ := h
      exact h.exact_end rfl
  | case3 r outlet bytes rest hne r' out hpush outlet' hsend ih =>
      obtain ⟨read, h⟩ := h
      exact ih ⟨read ++ bytes, h.next hne hpush hsend⟩
  | case4 r outlet bytes rest hne r' out hpush outlet' f hsend =>
      obtain ⟨read, h⟩ := h
      exact h.exact_stopped hne hpush hsend (by rintro ⟨⟩) r.finish.1
  | case5 r outlet bytes rest hne r' out hpush outlet' hsend =>
      obtain ⟨read, h⟩ := h
      exact h.exact_stopped hne hpush hsend (by rintro ⟨⟩) r.finish.1
  | case6 r outlet f rest outlet' hf ih =>
      obtain ⟨read, h⟩ := h
      exact ih ⟨read, h.again hf⟩
  | case7 r outlet f rest outlet' hf =>
      obtain ⟨read, h⟩ := h
      exact h.exact_abandoned (by simpa using hf)
  | case8 =>
      obtain ⟨read, h⟩ := h
      exact h.stalled

/-! ### Ends that are never ready -/

/-- Sending uses up replies, and stalls only where there is none. -/
theorem sendTo_replies (outlet : Outlet) (replies : List (Option Reply)) (bytes : Bytes) :
    (sendTo outlet replies bytes).1.replies <:+ replies ∧
      ((sendTo outlet replies bytes).2 = .stalled → none ∈ replies) := by
  fun_induction sendTo outlet replies bytes with
  | case1 => exact ⟨List.suffix_rfl, by rintro ⟨⟩⟩
  | case2 => exact ⟨List.suffix_rfl, by rintro ⟨⟩⟩
  | case3 => exact ⟨List.suffix_cons _ _, fun _ => List.mem_cons_self⟩
  | case4 => exact ⟨List.suffix_cons _ _, by rintro ⟨⟩⟩
  | case5 => exact ⟨List.suffix_cons _ _, by rintro ⟨⟩⟩
  | case6 outlet most replies bytes _ _ ih =>
      exact ⟨ih.1.trans (List.suffix_cons _ _), fun h => List.mem_cons_of_mem _ (ih.2 h)⟩
  | case7 => exact ⟨List.suffix_cons _ _, by rintro ⟨⟩⟩

theorem sendLast_stalled (outlet : Outlet) (bytes : Bytes)
    (h : (outlet.sendLast bytes).2 = .stalled) : none ∈ outlet.replies := by
  refine (sendTo_replies outlet outlet.replies bytes).2 ?_
  unfold Sink.sendLast Sink.send at h
  rcases hs : sendTo outlet outlet.replies bytes with ⟨sent, ⟨⟩ | f | _⟩
  · rcases hf : sent.flush with ⟨flushed, _ | f⟩
    all_goals
      simp only [hs, hf] at h
      cases h
  · simp only [hs] at h
    cases h
  · rfl

/-- A transfer stalls only at an end that is never ready; at a read only when all output so far has
been taken. -/
theorem pipe_stalled {outlet : Outlet} {readings : List Reading}
    (hu : ∃ read, Underway r₀ page read r outlet.events readings)
    (h : (pipe r outlet readings).2 = .stalled) :
    none ∈ outlet.replies ∨ .never ∈ readings ∧ written (pipe r outlet readings).1.events =
      (r₀.push (page.take (readLength (pipe r outlet readings).1.events))).2 := by
  have ended {r : Rewriter} {outlet : Outlet}
      (h : (endPage r (outlet.record (.read 0))).2 = .stalled) : none ∈ outlet.replies := by
    refine sendLast_stalled (outlet.record (.read 0)) r.finish.2 ?_
    unfold endPage at h
    rcases hs : (outlet.record (.read 0)).sendLast r.finish.2 with ⟨sent, ⟨⟩ | f | _⟩
    · simp only [hs] at h
      cases h
    · simp only [hs] at h
      cases h
    · rfl
  fun_induction pipe r outlet readings with
  | case1 r outlet => exact .inl (ended h)
  | case2 r outlet rest => exact .inl (ended h)
  | case3 r outlet bytes rest hne r' out hpush outlet' hsend ih =>
      obtain ⟨read, hu⟩ := hu
      have hreplies := (sendTo_replies (outlet.record (.read bytes.length)) outlet.replies out).1
      rw [← show outlet' = (sendTo (outlet.record (.read bytes.length)) outlet.replies out).1 from
        (congrArg Prod.fst hsend).symm] at hreplies
      exact (ih ⟨read ++ bytes, hu.next hne hpush hsend⟩ h).imp
        (fun hnone => hreplies.subset hnone) (And.imp_left (List.mem_cons_of_mem _))
  | case4 => cases h
  | case5 r outlet bytes rest hne r' out hpush outlet' hsend =>
      exact .inl ((sendTo_replies _ outlet.replies out).2 (congrArg Prod.snd hsend))
  | case6 r outlet f rest outlet' hf ih =>
      obtain ⟨read, hu⟩ := hu
      exact (ih ⟨read, hu.again hf⟩ h).imp id (And.imp_left (List.mem_cons_of_mem _))
  | case7 r outlet f rest outlet' hf =>
      refine .inl (sendLast_stalled (outlet.record (.readFailed f)) r.finish.2 ?_)
      unfold abandonPage at h
      split at h
      · rename_i hs
        rw [hs]
      · cases h
  | case8 =>
      obtain ⟨read, hu⟩ := hu
      refine .inr ⟨List.mem_cons_self, ?_⟩
      rw [hu.output, hu.length, hu.source, List.take_left]

/-! ### Every schedule -/

theorem never_mem_readings {buffer : Nat} {supplied : List Supplied}
    (h : .never ∈ readings buffer supplied) : .never ∈ supplied := by
  obtain ⟨s, hs, hmem⟩ := List.mem_flatMap.1 h
  cases s with
  | never => exact hs
  | fail f => simp at hmem
  | bytes given => cases given <;> simp at hmem

/-- Whatever a reader offers and a sink replies, a transfer is exact; and it comes to an end, unless
one of the two is never ready. -/
theorem pipe_exact (r : Rewriter) (replies : List (Option Reply)) (flushes : List (Option Failure))
    (supplied : List Supplied) :
    let page := Supplied.page supplied
    let transfer := pipe r { replies, flushes } (readings r.options.readBuffer supplied)
    Exact r page transfer.1.events transfer.2 ∧
      (transfer.2 = .stalled → none ∈ replies ∨ .never ∈ supplied ∧
        written transfer.1.events =
          (r.push (page.take (readLength transfer.1.events))).2) := by
  have hunderway := underway_start r (readings r.options.readBuffer supplied)
  rw [page_readings] at hunderway
  exact ⟨pipe_underway ⟨[], hunderway⟩, fun hstalled =>
    (pipe_stalled ⟨[], hunderway⟩ hstalled).imp id
      (And.imp_left never_mem_readings)⟩

end StyleSieve.Transfer
