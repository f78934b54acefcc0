import StyleSieve.Engine.Session
import StyleSieve.Proofs.Rewrite.Chunks

/-!
# What a command does to a session

A stream holds what it needs, a snapshot its catalog and a handle its slot, so a command touches no
more of these than it is about.  A catalog changes where a command puts another one
(`Session.puts`) and nowhere else, and no slot is ever taken from the shelf.  `Session.Effect` says
this once for every command, and the rest follows from it.

* `effect_step`: what a command does.
* `stream_step`: what it does to a stream that it does not open or end.
* `step_failed`: one that fails does nothing.
-/

namespace StyleSieve

open Rewrite (Rewriter)

/-! ### What a command is about -/

namespace Command

/-- The label of the stream that a command opens, feeds or ends. -/
def stream? : Command → Option Label
  | openStream label => some label
  | push label _ => some label
  | finish label => some label
  | _ => none

/-- The label that a command takes a snapshot under. -/
def snapshot? : Command → Option Label
  | snapshot label => some label
  | _ => none

/-- The label that a command keeps a handle under. -/
def handle? : Command → Option Label
  | handle label => some label
  | _ => none

/-- Whether a command opens or ends the stream under a label. -/
def opensOrEnds (label : Label) : Command → Bool
  | openStream other => other == label
  | finish other => other == label
  | _ => false

/-- Whether a command starts over with other styles. -/
def startsOver : Command → Bool
  | discover _ _ => true
  | adopt _ _ => true
  | _ => false

/-- What a command feeds to the stream under a label. -/
def pieces (label : Label) : Command → List Bytes
  | push other bytes => if other = label then [bytes] else []
  | _ => []

theorem pieces_eq_nil {c : Command} {label : Label} (h : c.stream? ≠ some label) :
    c.pieces label = [] := by
  cases c with
  | push other bytes => exact if_neg fun e => h (congrArg some e)
  | _ => rfl

end Command

/-- The bytes for the stream under a label that the answer to a command holds. -/
def Answer.bytesFor (label : Label) : Command → Answer → Bytes
  | .push other _, .sent bytes => if other = label then bytes else []
  | _, _ => []

theorem Answer.bytesFor_eq_nil {c : Command} {label : Label} (h : c.stream? ≠ some label)
    (a : Answer) : a.bytesFor label c = [] := by
  cases c with
  | push other bytes =>
      cases a with
      | sent out => exact if_neg fun e => h (congrArg some e)
      | _ => rfl
  | _ => rfl

/-! ### Shelves that change -/

/-- A shelf becomes another one as a catalog is put at a slot, or as nothing is. -/
structure Shelf.Takes (s t : Shelf) (change : Option (Slot × Catalog)) : Prop where
  holds : ∀ {slot}, s.Holds slot → t.Holds slot
  here : ∀ {slot c}, change = some (slot, c) → t.Holds slot ∧ t.catalog slot = c
  elsewhere : ∀ {slot}, s.Holds slot → (∀ c, change ≠ some (slot, c)) →
    t.catalog slot = s.catalog slot

namespace Shelf

variable {s : Shelf} {slot : Slot}

theorem takes_none (s : Shelf) : s.Takes s none :=
  ⟨id, fun h => (nomatch h), fun _ _ => rfl⟩

theorem takes_add (s : Shelf) (c : Catalog) : s.Takes (s.add c).1 (some ((s.add c).2, c)) where
  holds h := Nat.lt_of_lt_of_le h (by simp [add])
  here h := by
    cases h
    exact ⟨by simp [Holds, add], s.catalog_add_new c⟩
  elsewhere h _ := catalog_add_old h c

theorem takes_replace (h : s.Holds slot) (c : Catalog) :
    s.Takes (s.replace slot c).1 (some (slot, c)) where
  holds h' := by simpa only [Holds, replace, List.length_set] using h'
  here h' := by
    cases h'
    exact ⟨by simpa only [Holds, replace, List.length_set] using h, catalog_replace h c⟩
  elsewhere _ hne := catalog_replace_of_ne (by rintro rfl; exact hne c rfl) c

theorem Takes.catalog {t : Shelf} {change : Option (Slot × Catalog)} (h : s.Takes t change)
    (hslot : s.Holds slot) :
    t.catalog slot = ((change.filter (·.1 = slot)).map (·.2)).getD (s.catalog slot) := by
  cases hchange : change.filter (·.1 = slot) with
  | none =>
      refine h.elsewhere hslot fun c hc => ?_
      simp [hc] at hchange
  | some put =>
      obtain ⟨hput, hat⟩ := Option.filter_eq_some_iff.1 hchange
      rw [decide_eq_true_eq] at hat
      exact (h.here (hput.trans (congrArg some (Prod.ext hat rfl)))).2

end Shelf

namespace Session

variable {s : Session} {c : Command} {label : Label} {r : Rewriter} {slot : Slot}

/-! ### What stands under a label -/

theorem stream?_setStream (s : Session) (label other : Label) (stream : Option Rewriter) :
    (s.setStream other stream).stream? label =
      if label = other then stream else s.stream? label := by
  simp only [stream?, setStream, List.lookup_cons]
  split
  case h_1 h => rw [if_pos (beq_iff_eq.1 h), Option.join_some]
  case h_2 h => rw [if_neg (by simpa using h)]

theorem lookup_cons_of_ne {α : Type} {other : Label} (h : some other ≠ some label) (x : α)
    (xs : List (Label × α)) : ((other, x) :: xs).lookup label = xs.lookup label := by
  rw [List.lookup_cons, beq_false_of_ne fun e => h (congrArg some e.symm)]

/-! ### The effect of a command -/

/-- Every slot that the session or a handle leads to is on the shelf. -/
structure Held (s : Session) : Prop where
  slot : s.shelf.Holds s.slot
  handles : ∀ {label slot}, s.handles.lookup label = some slot → s.shelf.Holds slot

theorem held_start (folder : Folder) : Held { folder } :=
  ⟨Nat.zero_lt_one, fun h => (nomatch h)⟩

/-- What a command puts on the shelf, and where. -/
def puts (s : Session) : Command → Option (Slot × Catalog)
  | .discover route settings =>
    (Catalog.discover s.folder route settings).toOption.map (s.shelf.catalogs.length, ·)
  | .adopt _ catalog => some (s.shelf.catalogs.length, catalog)
  | .rebuild => s.reread.toOption.map (s.slot, ·)
  | .replace catalog _ => some (s.slot, catalog)
  | .replaceByHandle label catalog _ => (s.handles.lookup label).map (·, catalog)
  | _ => none

/-- What may differ in a session after a command. -/
structure Effect (s : Session) (c : Command) (t : Session) : Prop where
  streams : ∀ {label}, c.stream? ≠ some label → t.stream? label = s.stream? label
  snapshots : ∀ {label}, c.snapshot? ≠ some label →
    t.snapshots.lookup label = s.snapshots.lookup label
  handles : ∀ {label}, c.handle? ≠ some label → t.handles.lookup label = s.handles.lookup label
  shelf : s.Held → s.shelf.Takes t.shelf (s.puts c)
  /-- Only what starts over turns to another slot, where it has put its styles. -/
  slot : t.slot = s.slot ∨ c.startsOver = true ∧ ∃ catalog, s.puts c = some (t.slot, catalog)

theorem Effect.idle (h : s.puts c = none) : s.Effect c s where
  streams _ := rfl
  snapshots _ := rfl
  handles _ := rfl
  shelf _ := h ▸ s.shelf.takes_none
  slot := .inl rfl

theorem effect_edit (h : s.puts c = none) (edit : Folder.Edit) :
    s.Effect c (s.edit edit).1 := by
  obtain ⟨folder, _ | failure⟩ := edit <;> exact { Effect.idle h with }

theorem effect_setStream (h : s.puts c = none) (hlabel : c.stream? = some label)
    (stream : Option Rewriter) : s.Effect c (s.setStream label stream) :=
  { Effect.idle h with
    streams := fun hne => by
      rw [stream?_setStream, if_neg fun e => hne (hlabel.trans (congrArg some e.symm))] }

theorem effect_install {settings : Settings} {home : Option Route} {catalog : Catalog}
    (hc : c.startsOver = true) (h : s.puts c = some (s.shelf.catalogs.length, catalog)) :
    s.Effect c (s.install settings home catalog) where
  streams _ := rfl
  snapshots _ := rfl
  handles _ := rfl
  shelf _ := h ▸ s.shelf.takes_add catalog
  slot := .inr ⟨hc, catalog, h⟩

/-- What has been read again is put at the slot it is for, if all went well. -/
theorem takes_settle (h : s.shelf.Holds slot) (outcome : Except EngineError Catalog) :
    s.shelf.Takes (s.settle slot outcome).1.shelf (outcome.toOption.map (slot, ·)) := by
  cases outcome with
  | ok catalog => exact Shelf.takes_replace h catalog
  | error e => exact s.shelf.takes_none

/-- Nothing but the shelf changes as styles that have been read again are put in use. -/
theorem settle_eq (s : Session) (slot : Slot) (outcome : Except EngineError Catalog) :
    ∃ shelf, (s.settle slot outcome).1 = { s with shelf } := by
  cases outcome with
  | ok catalog => exact ⟨_, rfl⟩
  | error e => exact ⟨s.shelf, rfl⟩

theorem effect_replace {shelf : Shelf} {catalog : Catalog} (h : s.puts c = some (slot, catalog))
    (hslot : s.Held → s.shelf.Holds slot) (hshelf : shelf = (s.shelf.replace slot catalog).1) :
    s.Effect c { s with shelf } where
  streams _ := rfl
  snapshots _ := rfl
  handles _ := rfl
  shelf hs := by
    rw [h, hshelf]
    exact Shelf.takes_replace (hslot hs) catalog
  slot := .inl rfl

theorem effect_step (s : Session) (c : Command) : s.Effect c (s.step c).1 := by
  cases c with
  | write | makeFolder | remove | removeFolder | link => exact effect_edit rfl _
  | discover route settings =>
      simp only [step, Session.discover]
      split
      case h_1 catalog h => exact effect_install rfl (by simp only [puts, h]; rfl)
      case h_2 e h => exact .idle (by simp only [puts, h]; rfl)
  | adopt settings catalog => exact effect_install rfl rfl
  | rebuild =>
      simp only [step, rebuild]
      cases h : s.reread with
      | ok catalog => exact effect_replace (by simp only [puts, h]; rfl) Held.slot rfl
      | error e => exact .idle (by simp only [puts, h]; rfl)
  | replace catalog usage => exact effect_replace rfl Held.slot rfl
  | replaceByHandle label catalog usage =>
      simp only [step]
      split
      case h_1 slot h =>
        exact effect_replace (by simp only [puts, h]; rfl) (fun hs => hs.handles h) rfl
      case h_2 h => exact .idle (by simp only [puts, h]; rfl)
  | openStream label => exact effect_setStream rfl rfl _
  | push label bytes | finish label =>
      simp only [step]
      split
      · exact effect_setStream rfl rfl _
      · exact .idle rfl
  | snapshot label =>
      exact { Effect.idle (s := s) rfl with snapshots := fun h => lookup_cons_of_ne h _ _ }
  | handle label =>
      exact { Effect.idle (s := s) rfl with handles := fun h => lookup_cons_of_ne h _ _ }
  | readFiles | criticalOfSnapshot | criticalOfHandle =>
      simp only [step]
      split <;> exact .idle rfl
  | settings | rewrite | critical | pipe | writePage => exact .idle rfl

/-- The session with its slots, after a command. -/
theorem held_step (h : s.Held) (c : Command) : (s.step c).1.Held := by
  have heffect := s.effect_step c
  refine ⟨?_, fun {label slot} hlookup => ?_⟩
  · obtain hslot | ⟨-, catalog, hputs⟩ := heffect.slot
    · exact hslot ▸ (heffect.shelf h).holds h.slot
    · exact ((heffect.shelf h).here hputs).1
  · by_cases hlabel : c.handle? = some label
    · cases c with
      | handle =>
          cases hlabel
          cases List.lookup_cons_self.symm.trans hlookup
          exact h.slot
      | _ => cases hlabel
    · exact (heffect.shelf h).holds (h.handles ((heffect.handles hlabel).symm.trans hlookup))

/-! ### Streams -/

theorem step_push (hr : s.stream? label = some r) (bytes : Bytes) :
    s.step (.push label bytes) =
      (s.setStream label (some (r.push bytes).1), .sent (r.push bytes).2) := by
  simp only [step, hr]

/-- A stream that ends answers with the rest of its page. -/
theorem step_finish (hr : s.stream? label = some r) :
    s.step (.finish label) = (s.setStream label none, .ended r.finish.2 (.done r.finish.1)) := by
  simp only [step, hr]

/-- A stream takes the pieces that are fed to it, and nothing else changes it until it is opened
anew or ends. -/
theorem stream_step (hr : s.stream? label = some r) (hc : c.opensOrEnds label = false) :
    (s.step c).1.stream? label = some (r.push (c.pieces label).flatten).1 ∧
      (s.step c).2.bytesFor label c = (r.push (c.pieces label).flatten).2 := by
  by_cases hlabel : c.stream? = some label
  · cases c with
    | push =>
        cases hlabel
        simp [step_push hr, stream?_setStream, Command.pieces, Answer.bytesFor]
    | openStream | finish =>
        cases hlabel
        simp [Command.opensOrEnds] at hc
    | _ => cases hlabel
  · rw [Command.pieces_eq_nil hlabel, Answer.bytesFor_eq_nil hlabel, List.flatten_nil, r.push_nil]
    exact ⟨((s.effect_step c).streams hlabel).trans hr, rfl⟩

/-! ### Reading the styles again -/

/-- Reading the styles again ends as finding them there anew would, with the same engine. -/
theorem rebuild_agrees (h : s.Held) {route : Route} (hhome : s.home = some route) :
    s.rebuild.2 = (s.discover route s.settings).2 ∧
      s.rebuild.1.engine = (s.discover route s.settings).1.engine := by
  simp only [rebuild, reread, hhome, Session.discover]
  cases Catalog.discover s.folder route s.settings with
  | error e => exact ⟨rfl, rfl⟩
  | ok catalog =>
      have hengine : (s.settle s.slot (.ok catalog)).1.engine =
          (s.install s.settings (some route) catalog).engine :=
        congrArg (Engine.mk s.settings) ((Shelf.catalog_replace h.slot catalog).trans
          (s.shelf.catalog_add_new catalog).symm)
      refine ⟨?_, hengine⟩
      simp only [settle, names] at hengine ⊢
      rw [hengine]

/-! ### Failures -/

theorem settle_failed {outcome : Except EngineError Catalog} {e : EngineError}
    (h : (s.settle slot outcome).2 = .failed e) : (s.settle slot outcome).1 = s := by
  cases outcome with
  | ok catalog => cases h
  | error e => rfl

/-- A command that fails leaves the session as it was. -/
theorem step_failed {e : EngineError} (h : (s.step c).2 = .failed e) : (s.step c).1 = s := by
  cases c with
  | write | makeFolder | remove | removeFolder | link =>
      simp only [step, edit] at h
      split at h <;> cases h
  | discover route settings =>
      simp only [step, Session.discover] at h ⊢
      split at h
      · cases h
      · rfl
  | rebuild => exact settle_failed h
  | push | finish | replaceByHandle | readFiles | criticalOfSnapshot | criticalOfHandle =>
      simp only [step] at h
      split at h <;> cases h
  | _ => cases h

end Session

end StyleSieve
