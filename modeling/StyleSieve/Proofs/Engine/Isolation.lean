import StyleSieve.Proofs.Engine.Keeps

/-!
# Pages in flight while styles are read again

Reading the styles again takes time: the folder is read at one moment, and what that gave is put in
use at a later one.  Between the two anything may happen.  A `Service` is a session with the
rebuilds that are under way, and a run is any order of events: parties open streams, feed and end
them, take snapshots and handles, change the folder, replace styles and read them again.

The catalog at a slot is the one that was put there last (`current_run`).  A stream, a snapshot and
a handle keep what they were given, whatever happens in between.

* `stream_run`, `snapshot_run`, `handle_run`: what other events leave alone.
* `held_run`, `current_run`: what a run does to the shelf.
* `isolated_run`: who sees which styles, after any events.
-/

namespace StyleSieve

open Rewrite (Rewriter)

/-- What may happen while a service is at work. -/
inductive Service.Event where
  | command (c : Command)
  /-- A rebuild has read the styles where they were found. -/
  | read (task : Label)
  /-- A rebuild puts in use what it has read. -/
  | settle (task : Label)

/-- The command that an event is. -/
def Service.Event.command? : Service.Event → Option Command
  | command c => some c
  | _ => none

/-- What an event feeds to the stream under a label. -/
def Service.Event.pieces (label : Label) : Service.Event → List Bytes
  | command c => c.pieces label
  | _ => []

theorem Service.Event.pieces_eq_nil {e : Service.Event} (h : e.command? = none) (label : Label) :
    e.pieces label = [] := by
  cases e with
  | command c => cases h
  | _ => rfl

/-- The bytes for the stream under a label that the answers to some events hold. -/
def received (label : Label) (trace : List (Service.Event × Answer)) : Bytes :=
  trace.flatMap fun
    | (.command c, answer) => answer.bytesFor label c
    | _ => []

theorem received_cons (label : Label) (x : Service.Event × Answer)
    (trace : List (Service.Event × Answer)) :
    received label (x :: trace) = received label [x] ++ received label trace := by
  simp [received]

/-- A session, and its rebuilds: for which slot, and what has been read for it; `none` after that
has been put in use. -/
structure Service where
  session : Session
  tasks : List (Label × Option (Slot × Except EngineError Catalog)) := []

namespace Service

/-- The rebuild under way that a label stands for. -/
def task? (b : Service) (task : Label) : Option (Slot × Except EngineError Catalog) :=
  (b.tasks.lookup task).join

/-- The service with a rebuild under a label, or none. -/
def setTask (b : Service) (task : Label) (x : Option (Slot × Except EngineError Catalog)) :
    Service :=
  { b with tasks := (task, x) :: b.tasks }

/-- What happens at an event. -/
def step (b : Service) : Event → Service × Answer
  | .command c => ({ b with session := (b.session.step c).1 }, (b.session.step c).2)
  | .read task => (b.setTask task (some (b.session.slot, b.session.reread)), .done)
  | .settle task =>
    match b.task? task with
    | some (slot, outcome) =>
      let (session, answer) := b.session.settle slot outcome
      ({ b.setTask task none with session }, answer)
    | none => (b, .unknown)

/-- What happens at events, one after another. -/
def run (b : Service) : List Event → Service × List (Event × Answer)
  | [] => (b, [])
  | e :: events =>
    let (next, answer) := b.step e
    let (last, trace) := run next events
    (last, (e, answer) :: trace)

/-- The service after some events. -/
abbrev after (b : Service) (events : List Event) : Service := (b.run events).1

/-- The answer to a command. -/
def answer (b : Service) (c : Command) : Answer := (b.step (.command c)).2

/-- What an event puts on the shelf, and where. -/
def puts (b : Service) : Event → Option (Slot × Catalog)
  | .command c => b.session.puts c
  | .read _ => none
  | .settle task => (b.task? task).bind fun (slot, outcome) => outcome.toOption.map (slot, ·)

/-- The catalog that events put at a slot last. -/
def lastPut (b : Service) (slot : Slot) : List Event → Option Catalog
  | [] => none
  | e :: events =>
    ((b.step e).1.lastPut slot events).or (((b.puts e).filter (·.1 = slot)).map (·.2))

variable {b : Service} {e : Event} {label : Label} {slot : Slot} {r : Rewriter}
  {during : List Event}

/-! ### What other events leave alone -/

theorem after_cons (b : Service) (e : Event) (events : List Event) :
    b.after (e :: events) = (b.step e).1.after events := rfl

/-- What each event of a run keeps, the run keeps. -/
theorem keeps_run {p : Service → Prop} (hstep : ∀ b, ∀ e ∈ during, p b → p (b.step e).1)
    (hb : p b) : p (b.after during) := by
  induction during generalizing b with
  | nil => exact hb
  | cons e events ih =>
      exact ih (fun b e he => hstep b e (List.mem_cons_of_mem _ he))
        (hstep b e List.mem_cons_self hb)

/-- What is no command changes nothing of the session but the shelf. -/
theorem step_eq (b : Service) (h : e.command? = none) :
    ∃ shelf, (b.step e).1.session = { b.session with shelf } := by
  cases e with
  | command c => cases h
  | read task => exact ⟨b.session.shelf, rfl⟩
  | settle task =>
      simp only [step]
      split
      · exact b.session.settle_eq _ _
      · exact ⟨b.session.shelf, rfl⟩

/-- What commands but for some keep, and what does not depend on the shelf, a run without those
keeps. -/
theorem session_run {p : Session → Prop} {spared : Command → Prop}
    (hcommand : ∀ s c, spared c → p s → p (s.step c).1)
    (hshelf : ∀ s shelf, p s → p { s with shelf }) (hb : p b.session)
    (h : ∀ c, .command c ∈ during → spared c) : p (b.after during).session := by
  refine keeps_run (p := fun b => p b.session) (fun b e hmem hb => ?_) hb
  cases he : e.command? with
  | none =>
      obtain ⟨shelf, hkept⟩ := b.step_eq he
      exact hkept ▸ hshelf _ shelf hb
  | some c =>
      cases e with
      | command c => exact hcommand _ c (h c hmem) hb
      | _ => cases he

theorem stream_step (hr : b.session.stream? label = some r)
    (h : ∀ c, e = .command c → c.opensOrEnds label = false) :
    (b.step e).1.session.stream? label = some (r.push (e.pieces label).flatten).1 ∧
      received label [(e, (b.step e).2)] = (r.push (e.pieces label).flatten).2 := by
  cases he : e.command? with
  | none =>
      obtain ⟨shelf, hkept⟩ := b.step_eq he
      rw [hkept, Event.pieces_eq_nil he, List.flatten_nil, r.push_nil]
      cases e with
      | command c => cases he
      | _ => exact ⟨hr, rfl⟩
  | some c =>
      cases e with
      | command c =>
          obtain ⟨hnext, hbytes⟩ := Session.stream_step hr (h c rfl)
          exact ⟨hnext, (List.append_nil _).trans hbytes⟩
      | _ => cases he

/-- A stream goes on with the pieces that are fed to it, whatever else happens. -/
theorem stream_run (hr : b.session.stream? label = some r)
    (h : ∀ c, .command c ∈ during → c.opensOrEnds label = false) :
    (b.after during).session.stream? label =
        some (r.push (during.flatMap (·.pieces label)).flatten).1 ∧
      received label (b.run during).2 =
        (r.push (during.flatMap (·.pieces label)).flatten).2 := by
  induction during generalizing b r with
  | nil =>
      rw [List.flatMap_nil, List.flatten_nil, r.push_nil]
      exact ⟨hr, rfl⟩
  | cons e events ih =>
      obtain ⟨hnext, hbytes⟩ := stream_step hr fun c he => h c (he ▸ List.mem_cons_self)
      obtain ⟨hlast, hmore⟩ := ih hnext fun c hc => h c (List.mem_cons_of_mem _ hc)
      have htrace : received label (b.run (e :: events)).2 =
          received label [(e, (b.step e).2)] ++ received label ((b.step e).1.run events).2 :=
        received_cons label _ _
      rw [List.flatMap_cons, List.flatten_append, r.push_append, htrace, hbytes, hmore]
      exact ⟨hlast, rfl⟩

theorem snapshot_run {catalog : Catalog} (hb : b.session.snapshots.lookup label = some catalog)
    (h : ∀ c, .command c ∈ during → c.snapshot? ≠ some label) :
    (b.after during).session.snapshots.lookup label = some catalog :=
  session_run (p := fun s => s.snapshots.lookup label = some catalog)
    (fun s _ hc hs => ((s.effect_step _).snapshots hc).trans hs) (fun _ _ hs => hs) hb h

theorem handle_run (hb : b.session.handles.lookup label = some slot)
    (h : ∀ c, .command c ∈ during → c.handle? ≠ some label) :
    (b.after during).session.handles.lookup label = some slot :=
  session_run (p := fun s => s.handles.lookup label = some slot)
    (fun s _ hc hs => ((s.effect_step _).handles hc).trans hs) (fun _ _ hs => hs) hb h

/-- The engine in use keeps its slot until it starts over. -/
theorem slot_run (h : ∀ c, .command c ∈ during → c.startsOver = false) :
    (b.after during).session.slot = b.session.slot := by
  refine session_run (p := fun s => s.slot = b.session.slot) (fun s c hc hs => ?_)
    (fun _ _ hs => hs) rfl h
  obtain hslot | ⟨hover, -⟩ := (s.effect_step c).slot
  · exact hslot.trans hs
  · exact absurd hover (by simp [hc])

theorem task?_setTask (b : Service) (task other : Label)
    (x : Option (Slot × Except EngineError Catalog)) :
    (b.setTask other x).task? task = if task = other then x else b.task? task := by
  simp only [task?, setTask, List.lookup_cons]
  split
  case h_1 h => rw [if_pos (beq_iff_eq.1 h), Option.join_some]
  case h_2 h => rw [if_neg (by simpa using h)]

/-- A rebuild that is put in use is over. -/
theorem task?_settle (b : Service) (task other : Label) :
    (b.step (.settle other)).1.task? task = if task = other then none else b.task? task := by
  simp only [step]
  split
  case h_1 => exact b.task?_setTask task other none
  case h_2 h =>
    split
    case isTrue e => exact e ▸ h
    case isFalse => rfl

/-- A rebuild under way keeps what it has read. -/
theorem task?_run {task : Label} {x : Slot × Except EngineError Catalog}
    (hb : b.task? task = some x) (h : ∀ e ∈ during, e ≠ .read task ∧ e ≠ .settle task) :
    (b.after during).task? task = some x := by
  refine keeps_run (p := fun b => b.task? task = some x) (fun b e hmem hb => ?_) hb
  obtain ⟨hread, hsettle⟩ := h e hmem
  cases e with
  | command c => exact hb
  | read other =>
      have hne : task ≠ other := fun he => hread (congrArg _ he.symm)
      exact (b.task?_setTask task other _).trans ((if_neg hne).trans hb)
  | settle other =>
      have hne : task ≠ other := fun he => hsettle (congrArg _ he.symm)
      exact (b.task?_settle task other).trans ((if_neg hne).trans hb)

/-! ### What a run does to the shelf -/

/-- Every slot that something leads to is on the shelf. -/
structure Held (b : Service) : Prop where
  session : b.session.Held
  tasks : ∀ {task slot outcome}, b.task? task = some (slot, outcome) → b.session.shelf.Holds slot

theorem takes_step (h : b.Held) (e : Event) :
    b.session.shelf.Takes (b.step e).1.session.shelf (b.puts e) := by
  cases e with
  | command c => exact (b.session.effect_step c).shelf h.session
  | read task => exact b.session.shelf.takes_none
  | settle task =>
      simp only [step, puts]
      split
      case h_1 slot outcome htask =>
        rw [htask]
        exact Session.takes_settle (h.tasks htask) outcome
      case h_2 htask =>
        rw [htask]
        exact b.session.shelf.takes_none

theorem held_step (h : b.Held) (e : Event) : (b.step e).1.Held := by
  have htakes := takes_step h e
  cases e with
  | command c =>
      exact ⟨Session.held_step h.session c, fun htask => htakes.holds (h.tasks htask)⟩
  | read other =>
      refine ⟨h.session, fun {task slot outcome} htask => ?_⟩
      rw [step, task?_setTask] at htask
      split at htask
      · cases htask
        exact h.session.slot
      · exact h.tasks htask
  | settle other =>
      obtain ⟨shelf, hkept⟩ := b.step_eq (e := .settle other) rfl
      rw [hkept] at htakes
      refine ⟨hkept ▸ ⟨htakes.holds h.session.slot, fun hhandle =>
        htakes.holds (h.session.handles hhandle)⟩, fun {task slot outcome} htask => ?_⟩
      rw [task?_settle] at htask
      split at htask
      · cases htask
      · exact hkept ▸ htakes.holds (h.tasks htask)

theorem held_run (h : b.Held) (events : List Event) : (b.after events).Held :=
  keeps_run (fun _ e _ hb => held_step hb e) h

/-- **The catalog at a slot is the one that was put there last.** -/
theorem current_run (h : b.Held) (hslot : b.session.shelf.Holds slot) (during : List Event) :
    (b.after during).session.shelf.catalog slot =
      (b.lastPut slot during).getD (b.session.shelf.catalog slot) := by
  induction during generalizing b with
  | nil => rfl
  | cons e events ih =>
      have htakes := takes_step h e
      rw [after_cons, ih (held_step h e) (htakes.holds hslot), lastPut, htakes.catalog hslot]
      cases (b.step e).1.lastPut slot events <;> rfl

/-! ### Who sees which styles -/

/-- What every party may rely on from here on, whatever the others do. -/
structure Isolated (b : Service) : Prop where
  /-- A stream that is opened now sends what the engine in use now makes of its page. -/
  stream (label : Label) (during : List Event)
    (h : ∀ c, .command c ∈ during → c.opensOrEnds label = false) :
    let opened := (b.step (.command (.openStream label))).1
    let page := b.session.engine.rewriter.complete (during.flatMap (·.pieces label))
    ∃ rest, (opened.after during).answer (.finish label) = .ended rest (.done page.1) ∧
      received label (opened.run during).2 ++ rest = page.2
  /-- A snapshot that is taken now answers from the catalog in use now. -/
  snapshot (label : Label) (during : List Event)
    (h : ∀ c, .command c ∈ during → c.snapshot? ≠ some label) :
    let later := (b.step (.command (.snapshot label))).1.after during
    later.session.snapshots.lookup label = some b.session.engine.catalog ∧
      ∀ usage, later.answer (.criticalOfSnapshot label usage) =
        .text (b.session.engine.catalog.critical usage)
  /-- A handle that is kept now leads to the slot in use now, for ever. -/
  handle (label : Label) (during : List Event)
    (h : ∀ c, .command c ∈ during → c.handle? ≠ some label) :
    ((b.step (.command (.handle label))).1.after during).session.handles.lookup label =
      some b.session.slot
  /-- That slot stays in use until the engine starts over. -/
  slot (during : List Event) (h : ∀ c, .command c ∈ during → c.startsOver = false) :
    (b.after during).session.slot = b.session.slot
  /-- A handle that leads to the slot in use does what the engine does. -/
  agrees {label : Label} (h : b.session.handles.lookup label = some b.session.slot)
    (usage : Usage) :
    b.answer (.criticalOfHandle label usage) = b.answer (.critical usage) ∧
      ∀ catalog, b.step (.command (.replaceByHandle label catalog usage)) =
        b.step (.command (.replace catalog usage))
  /-- Handles that lead to one slot do the same, and see the catalog that stands there. -/
  clones {label other : Label} {slot : Slot} (h : b.session.handles.lookup label = some slot)
    (h' : b.session.handles.lookup other = some slot) (usage : Usage) :
    b.answer (.criticalOfHandle label usage) =
        .text ((b.session.shelf.catalog slot).critical usage) ∧
      b.answer (.criticalOfHandle other usage) = b.answer (.criticalOfHandle label usage) ∧
      ∀ catalog, b.step (.command (.replaceByHandle other catalog usage)) =
        b.step (.command (.replaceByHandle label catalog usage))
  /-- At every slot stands the catalog that was put there last. -/
  current {slot : Slot} (h : b.session.shelf.Holds slot) (during : List Event) :
    (b.after during).session.shelf.catalog slot =
      (b.lastPut slot during).getD (b.session.shelf.catalog slot)
  /-- A handle gives back the catalog that it replaces, and puts the new one in its place. -/
  replaced {label : Label} {slot : Slot} (h : b.session.handles.lookup label = some slot)
    (catalog : Catalog) (usage : Usage) :
    let next := (b.step (.command (.replaceByHandle label catalog usage))).1
    b.answer (.replaceByHandle label catalog usage) =
        .replaced ((b.session.shelf.catalog slot).critical usage)
          (next.session.engine.catalog.critical usage) ∧
      next.session.shelf.catalog slot = catalog
  /-- A rebuild ends as finding the styles there anew would, with the same engine. -/
  rebuilt {route : Route} (h : b.session.home = some route) :
    let fresh := b.step (.command (.discover route b.session.settings))
    b.answer .rebuild = fresh.2 ∧
      (b.step (.command .rebuild)).1.session.engine = fresh.1.session.engine
  /-- Without such a place there is none. -/
  homeless (h : b.session.home = none) : b.answer .rebuild = .failed .noFolder
  /-- A rebuild that takes its time puts what it has read at the slot that was in use then, or fails
  as it would have failed then. -/
  settled (task : Label) (during : List Event)
    (h : ∀ e ∈ during, e ≠ .read task ∧ e ≠ .settle task) :
    let waiting := (b.step (.read task)).1.after during
    waiting.puts (.settle task) = b.puts (.command .rebuild) ∧
      (∀ catalog, b.session.reread = .ok catalog →
        (waiting.step (.settle task)).1.session.shelf.catalog b.session.slot = catalog) ∧
      ∀ e, b.answer .rebuild = .failed e → (waiting.step (.settle task)).2 = .failed e
  /-- What fails changes nothing. -/
  failed {e : Event} {error : EngineError} (h : (b.step e).2 = .failed error) :
    (b.step e).1.session = b.session

theorem isolated_of_held (h : b.Held) : b.Isolated where
  stream label during hduring := by
    intro opened page
    have hopen : opened.session.stream? label = some b.session.engine.rewriter :=
      (b.session.stream?_setStream label label _).trans (if_pos rfl)
    obtain ⟨hlast, hbytes⟩ := stream_run hopen hduring
    have hpage := b.session.engine.rewriter.complete_eq (during.flatMap (·.pieces label))
    refine ⟨(b.session.engine.rewriter.push
      (during.flatMap (·.pieces label)).flatten).1.finish.2, ?_, ?_⟩
    · simp only [answer, step, Session.step_finish hlast, page, hpage]
    · simp only [hbytes, page, hpage]
  snapshot label during hduring := by
    intro later
    have hkept : later.session.snapshots.lookup label = some b.session.engine.catalog :=
      snapshot_run List.lookup_cons_self hduring
    refine ⟨hkept, fun usage => ?_⟩
    simp only [answer, step, Session.step, hkept]
  handle label during hduring := handle_run List.lookup_cons_self hduring
  slot during hduring := slot_run hduring
  agrees hlabel usage := by
    refine ⟨?_, fun catalog => ?_⟩
    · simp only [answer, step, Session.step, hlabel, Session.engine]
    · simp only [step, Session.step, hlabel]
  clones hlabel hother usage := by
    refine ⟨?_, ?_, fun catalog => ?_⟩ <;>
      simp only [answer, step, Session.step, hlabel, hother]
  current hslot during := current_run h hslot during
  replaced hlabel catalog usage := by
    simp only [answer, step, Session.step, hlabel]
    exact ⟨rfl, Shelf.catalog_replace (h.session.handles hlabel) catalog⟩
  rebuilt hhome := Session.rebuild_agrees h.session hhome
  homeless hhome := by
    simp only [answer, step, Session.step, Session.rebuild, Session.reread, hhome, Session.settle]
  settled task during hduring := by
    intro waiting
    have htask : waiting.task? task = some (b.session.slot, b.session.reread) :=
      task?_run ((b.task?_setTask task task _).trans (if_pos rfl)) hduring
    have hputs : waiting.puts (.settle task) = b.puts (.command .rebuild) := by
      simp only [puts, htask]
      rfl
    have hheld : waiting.Held := held_run (held_step h _) during
    refine ⟨hputs, fun catalog hread => ?_, fun e herror => ?_⟩
    · refine ((takes_step hheld (.settle task)).here (hputs.trans ?_)).2
      simp only [puts, Session.puts, hread]
      rfl
    · simp only [answer, step, Session.step, Session.rebuild] at herror
      simp only [step, htask]
      cases hread : b.session.reread <;> rw [hread] at herror
      · exact herror
      · cases herror
  failed {e error} herror := by
    cases e with
    | command c => exact Session.step_failed herror
    | read task => cases herror
    | settle task =>
        simp only [step] at herror ⊢
        split at herror
        · exact Session.settle_failed herror
        · cases herror

/-- **Pages in flight are isolated.**  From any folder and after any events, every party may rely on
what it was given: a stream on the styles it was opened with, a snapshot on the catalog it was taken
of, a handle on its slot; and rebuilds put in use what was found, or change nothing. -/
theorem isolated_run (folder : Folder) (events : List Event) :
    (Service.after ⟨{ folder }, []⟩ events).Isolated := by
  have hstart : Held ⟨{ folder }, []⟩ := ⟨Session.held_start folder, fun h => (nomatch h)⟩
  exact isolated_of_held (held_run hstart events)

end Service

end StyleSieve
