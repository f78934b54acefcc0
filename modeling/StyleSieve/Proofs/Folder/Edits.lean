import StyleSieve.Engine.Session
import StyleSieve.Proofs.Folder.Tree

/-!
# Edits keep folders trees

An edit finds its way by a route and changes the folder where that ends.  What stands there stands
in a folder, under a name (`Folder.Fits`), if the route and the links on its way are written with
names (`Folder.IsSound`); so what an edit puts there stands in a tree, and what it takes away it
takes with all that stands below.

* `Folder.IsSound.seek`: where a route ends.
* `Folder.IsSound.put`, `Folder.IsSound.filter`: what an edit does there.
* `Folder.IsReached.isTree`: every folder that a session comes to.
-/

namespace StyleSieve

open Transfer (Failure)

/-- Every step down goes to a name. -/
def Route.IsNamed (r : Route) : Prop := ∀ name, .down name ∈ r.steps → Path.IsName name

namespace Route

theorem mem_of_mem_properStarts {steps start : List Step} (h : start ∈ properStarts steps)
    {step : Step} (hstep : step ∈ start) : step ∈ steps := by
  induction steps generalizing start with
  | nil => cases h
  | cons first rest ih =>
      rw [properStarts, List.mem_append, List.mem_map, List.mem_singleton] at h
      rcases h with ⟨next, hnext, rfl⟩ | rfl
      · exact (List.mem_cons.1 hstep).elim (fun h => h ▸ List.mem_cons_self) fun h =>
          List.mem_cons_of_mem first (ih hnext h)
      · cases hstep

theorem mem_of_mem_settle {steps : List Step} {step : Step} (h : step ∈ settle steps) :
    step ∈ steps :=
  List.mem_reverse.1 ((List.dropWhile_sublist _).subset (List.mem_reverse.1 h))

theorem IsNamed.enclosing {route r : Route} (hroute : route.IsNamed) (h : r ∈ route.enclosing) :
    r.IsNamed := by
  obtain ⟨start, hstart, rfl⟩ := List.mem_map.1 h
  exact fun name hname => hroute name
    (mem_of_mem_settle (mem_of_mem_properStarts (List.mem_filter.1 hstart).1 hname))

end Route

namespace Folder

/-- A folder is a tree whose links are written with names. -/
structure IsSound (f : Folder) : Prop extends IsTree f where
  links : ∀ {path target}, (path, .link target) ∈ f.entries → target.IsNamed

/-- Something can stand at a path: it is in a folder, under a name. -/
structure Fits (f : Folder) (path : Path) : Prop where
  name : ∀ name ∈ path, Path.IsName name
  parent : path ≠ [] → (path.dropLast, .folder) ∈ f.entries

variable {f g : Folder} {path : Path} {spot spot' : Spot} {policy : EndPolicy} {route : Route}

theorem fits_top (f : Folder) : f.Fits [] where
  name _ h := absurd h List.not_mem_nil
  parent h := absurd rfl h

namespace IsSound

theorem start : ({} : Folder).IsSound where
  nodup := List.nodup_singleton _
  parent e he hne := by
    rw [List.mem_singleton.1 he] at hne
    exact absurd rfl hne
  name e he := by
    rw [List.mem_singleton.1 he]
    exact fun _ h => absurd h List.not_mem_nil
  links h := absurd (List.mem_singleton.1 h) (by simp)

/-! ### Where a route ends -/

theorem fits_up (hf : f.IsSound) (h : (path, .folder) ∈ f.entries) : f.Fits path.dropLast where
  name name hname := hf.name _ h name (List.dropLast_subset _ hname)
  parent hne := by
    have hpath : path ≠ [] := fun hnil => hne (by rw [hnil]; rfl)
    exact hf.parent _ (hf.parent _ h hpath) hne

theorem fits_down (hf : f.IsSound) (h : (path, .folder) ∈ f.entries) {name : Text}
    (hname : Path.IsName name) : f.Fits (path ++ [name]) where
  name other hother := by
    rcases List.mem_append.1 hother with hother | hother
    · exact hf.name _ h other hother
    · rwa [List.mem_singleton.1 hother]
  parent _ := by rwa [List.dropLast_concat]

/-- A walk ends where something can stand, if the routes that links lead it on do. -/
theorem walk (hf : f.IsSound) {onLink : Route → Except Failure Spot}
    (hlink : ∀ {route spot}, route.IsNamed → onLink route = .ok spot → f.Fits spot.path)
    {steps : List Step} (hsteps : ∀ name, .down name ∈ steps → Path.IsName name)
    (hspot : f.Fits spot.path) (h : f.walk onLink policy spot steps = .ok spot') :
    f.Fits spot'.path := by
  induction steps generalizing spot with
  | nil => cases h; exact hspot
  | cons step rest ih =>
      have hrest : ∀ name, .down name ∈ rest → Path.IsName name := fun name hname =>
        hsteps name (List.mem_cons_of_mem step hname)
      simp only [Folder.walk] at h
      split at h
      case h_1 => cases h
      case h_3 => cases h
      case h_2 hentry =>
        have hfolder := hf.entry?_eq_some_iff.1 hentry
        cases step with
        | stay =>
            refine ih hrest ?_ h
            exact hspot
        | up => exact ih hrest (hf.fits_up hfolder) h
        | down name =>
            have hnext := hf.fits_down hfolder (hsteps name List.mem_cons_self)
            simp only at h
            split at h
            case isTrue => cases h
            case isFalse =>
              split at h
              case h_2 => exact ih hrest hnext h
              case h_1 target hentry' =>
                -- a link is left alone only where the route ends; else its own route goes first
                have htarget := hf.links (hf.entry?_eq_some_iff.1 hentry')
                split at h
                · split at h
                  · refine hlink ?_ h
                    exact htarget
                  · cases h; exact hnext
                · refine hlink (fun name hname => ?_) h
                  exact (List.mem_append.1 hname).elim (htarget name) (hrest name)

theorem seekWithin (hf : f.IsSound) {limit : Nat} (hroute : route.IsNamed)
    (h : f.seekWithin policy limit route = .ok spot) : f.Fits spot.path := by
  induction limit generalizing route spot with
  | zero => cases h
  | succ limit ih => exact hf.walk ih hroute f.fits_top h

/-- A route ends where something can stand. -/
theorem seek (hf : f.IsSound) (hroute : route.IsNamed) (h : f.seek policy route = .ok spot) :
    f.Fits spot.path := by
  rw [Folder.seek] at h
  split at h
  · cases h
  · exact hf.seekWithin hroute h

/-! ### What is put and what is taken away -/

/-- A folder stays sound as something is put where it can stand, but for what is put in place of a
folder. -/
theorem put (hf : f.IsSound) (hpath : f.Fits path) {entry : Entry}
    (hplace : f.entry? path = some .folder → entry = .folder)
    (hlink : ∀ target, entry = .link target → target.IsNamed) : (f.put path entry).IsSound := by
  have hmem {e : Path × Entry} : e ∈ (f.put path entry).entries ↔
      e ∈ f.entries ∧ e.1 ≠ path ∨ e = (path, entry) := by
    simp [Folder.put]
  have hfolder {above : Path} (h : (above, .folder) ∈ f.entries) :
      (above, .folder) ∈ (f.put path entry).entries := by
    by_cases habove : above = path
    · rw [habove] at h ⊢
      exact hmem.2 (.inr (by rw [hplace (hf.entry?_eq_some_iff.2 h)]))
    · exact hmem.2 (.inl ⟨h, habove⟩)
  refine { nodup := ?_, parent := ?_, name := ?_, links := ?_ }
  · rw [Folder.put, List.map_append, List.nodup_append]
    refine ⟨hf.nodup.sublist (List.filter_sublist.map _), List.nodup_singleton path, ?_⟩
    rintro _ hother _ hpath rfl
    obtain ⟨e, he, rfl⟩ := List.mem_map.1 hother
    exact of_decide_eq_true (List.mem_filter.1 he).2 (List.mem_singleton.1 hpath)
  · intro e he hne
    rcases hmem.1 he with ⟨he, -⟩ | rfl
    · exact hfolder (hf.parent e he hne)
    · exact hfolder (hpath.parent hne)
  · intro e he
    rcases hmem.1 he with ⟨he, -⟩ | rfl
    · exact hf.name e he
    · exact hpath.name
  · intro path target h
    rcases hmem.1 h with ⟨h, -⟩ | h
    · exact hf.links h
    · exact hlink target (Prod.ext_iff.1 h).2.symm

/-- A folder stays sound as all that stands below something is taken away. -/
theorem filter (hf : f.IsSound) (keeps : Path → Bool)
    (h : ∀ path, path ≠ [] → keeps path = true → keeps path.dropLast = true) :
    ({ entries := f.entries.filter fun e => keeps e.1 } : Folder).IsSound where
  nodup := hf.nodup.sublist (List.filter_sublist.map _)
  parent e he hne := by
    obtain ⟨he, hkeeps⟩ := List.mem_filter.1 he
    exact List.mem_filter.2 ⟨hf.parent e he hne, h e.1 hne hkeeps⟩
  name e he := hf.name e (List.mem_filter.1 he).1
  links h := hf.links (List.mem_filter.1 h).1

theorem erase (hf : f.IsSound) (path : Path) : (f.erase path).IsSound := by
  refine hf.filter (fun other => (Path.below? path other).isNone) fun other hne h => ?_
  cases hbelow : Path.below? path other.dropLast with
  | none => rfl
  | some below =>
      rw [Path.below?_of_dropLast hne hbelow] at h
      cases h

theorem clear (hf : f.IsSound) (path : Path) : (f.clear path).IsSound := by
  refine hf.filter (fun other => !(Path.below? path other).any (!·.isEmpty)) fun other hne h => ?_
  cases hbelow : Path.below? path other.dropLast with
  | none => rfl
  | some below =>
      rw [Path.below?_of_dropLast hne hbelow] at h
      simp at h

/-! ### Edits -/

theorem attempt (hf : f.IsSound) {outcome : Except Failure Folder}
    (h : ∀ g, outcome = .ok g → g.IsSound) : (f.attempt outcome).1.IsSound := by
  cases outcome with
  | ok g => exact h g rfl
  | error failure => exact hf

theorem addFolder (hf : f.IsSound) (hroute : route.IsNamed) (h : f.addFolder route = .ok g) :
    g.IsSound := by
  cases hseek : f.seek .leave route with
  | error failure => simp [Folder.addFolder, hseek, bind, Except.bind] at h
  | ok spot =>
      simp only [Folder.addFolder, hseek, bind, Except.bind] at h
      split at h
      · cases h
      · cases h
        exact hf.put (hf.seek hroute hseek) (fun _ => rfl) (fun _ h => nomatch h)

theorem makeFirst (hf : f.IsSound) {routes : List Route} (hroutes : ∀ r ∈ routes, r.IsNamed) :
    (f.makeFirst routes).1.IsSound := by
  induction routes generalizing f with
  | nil => exact hf
  | cons route above ih =>
      obtain ⟨hroute, habove⟩ := List.forall_mem_cons.1 hroutes
      have hnext := ih hf habove
      rw [Folder.makeFirst]
      split
      case h_1 made hmade => exact hf.addFolder hroute hmade
      case h_2 failure _ =>
        split
        case isFalse => exact hf
        case isTrue =>
          split
          case h_1 next _ h => rwa [h] at hnext
          case h_2 next h =>
            rw [h] at hnext
            split
            case h_1 made hmade => exact hnext.addFolder hroute hmade
            case h_2 => exact hnext

theorem makeFolder (hf : f.IsSound) (hroute : route.IsNamed) : (f.makeFolder route).1.IsSound :=
  hf.makeFirst (List.forall_mem_cons.2 ⟨hroute, fun _ => hroute.enclosing⟩)

theorem writeFile (hf : f.IsSound) (hroute : route.IsNamed) {contents : Bytes}
    (h : f.writeFile route contents = .ok g) : g.IsSound := by
  cases hseek : f.seek .followUnlessSlash route with
  | error failure => simp [Folder.writeFile, hseek, bind, Except.bind] at h
  | ok spot =>
      simp only [Folder.writeFile, hseek, bind, Except.bind] at h
      split at h
      case isTrue => cases h
      case isFalse hfile =>
        cases h
        refine hf.put (hf.seek hroute hseek) (fun hentry => ?_) (fun _ h => nomatch h)
        simp [hentry] at hfile

theorem write (hf : f.IsSound) (hroute : route.IsNamed) (contents : Bytes) :
    (f.write route contents).1.IsSound := by
  have hmade := hf.makeFirst fun r => hroute.enclosing (r := r)
  rw [Folder.write]
  split
  case h_1 next h =>
    rw [h] at hmade
    exact hmade.attempt fun g hg => hmade.writeFile hroute hg
  case h_2 => exact hmade

theorem remove (hf : f.IsSound) (route : Route) : (f.remove route).1.IsSound := by
  refine hf.attempt fun g hg => ?_
  cases hseek : f.seek .leave route with
  | error failure => simp [hseek, bind, Except.bind] at hg
  | ok spot =>
      simp only [hseek, bind, Except.bind] at hg
      split at hg
      · cases hg
      · split at hg
        · cases hg
        · cases hg
        · split at hg
          · cases hg
          · cases hg
            exact hf.erase spot.path

theorem removeEmpty (hf : f.IsSound) (route : Route) (h : f.removeEmpty route = .ok g) :
    g.IsSound := by
  rw [Folder.removeEmpty] at h
  split at h
  · split at h
    · cases h; exact hf
    · cases h
  · split at h
    · cases h
    · split at h
      · cases h; exact hf
      · cases h; exact hf.erase _
      · cases h

theorem removeFolder (hf : f.IsSound) (route : Route) : (f.removeFolder route).1.IsSound := by
  rw [Folder.removeFolder]
  split
  · exact hf
  case h_2 path _ =>
    have hclear := hf.clear path
    exact hclear.attempt fun g hg => hclear.removeEmpty route hg
  · exact hf
  · exact hf.erase _

theorem link (hf : f.IsSound) (hroute : route.IsNamed) {target : Route}
    (htarget : target.IsNamed) : (f.link route target).1.IsSound := by
  refine hf.attempt fun g hg => ?_
  split at hg
  · cases hg
  cases hseek : f.seek .leave route with
  | error failure => simp [hseek, bind, Except.bind] at hg
  | ok spot =>
      simp only [hseek, bind, Except.bind] at hg
      split at hg
      case isTrue => cases hg
      case isFalse hfree =>
        split at hg
        · cases hg
        · cases hg
          refine hf.put (hf.seek hroute hseek) (fun hentry => ?_) fun _ h => ?_
          · simp [hentry] at hfree
          · cases h; exact htarget

end IsSound

end Folder

/-! ### Sessions -/

namespace Command

/-- The routes that a command writes into the folder with, or puts there. -/
def routes : Command → List Route
  | write route _ => [route]
  | makeFolder route => [route]
  | link route target => [route, target]
  | _ => []

end Command

namespace Session

variable {s : Session} {c : Command}

theorem folder_edit (s : Session) (edit : Folder.Edit) : (s.edit edit).1.folder = edit.1 := by
  obtain ⟨folder, _ | failure⟩ := edit <;> rfl

theorem folder_step (hs : s.folder.IsSound) (hc : ∀ r ∈ c.routes, r.IsNamed) :
    (s.step c).1.folder.IsSound := by
  cases c with
  | write route contents =>
      rw [step, folder_edit]
      exact hs.write (hc route List.mem_cons_self) contents
  | makeFolder route =>
      rw [step, folder_edit]
      exact hs.makeFolder (hc route List.mem_cons_self)
  | remove route =>
      rw [step, folder_edit]
      exact hs.remove route
  | removeFolder route =>
      rw [step, folder_edit]
      exact hs.removeFolder route
  | link route target =>
      rw [step, folder_edit]
      obtain ⟨hroute, htarget⟩ := List.forall_mem_cons.1 hc
      exact hs.link hroute (htarget target List.mem_cons_self)
  | discover route settings =>
      simp only [step, Session.discover]
      split <;> exact hs
  | rebuild =>
      rw [step, rebuild]
      cases s.reread <;> exact hs
  | readFiles | replaceByHandle | criticalOfSnapshot | criticalOfHandle | push | finish =>
      simp only [step]
      split <;> exact hs
  | _ => exact hs

theorem folder_run (hs : s.folder.IsSound) {commands : List Command}
    (hcommands : ∀ c ∈ commands, ∀ r ∈ c.routes, r.IsNamed) :
    (s.run commands).1.folder.IsSound := by
  induction commands generalizing s with
  | nil => exact hs
  | cons c commands ih =>
      obtain ⟨hc, hrest⟩ := List.forall_mem_cons.1 hcommands
      exact ih (folder_step hs hc) hrest

end Session

/-- A session whose routes are written with names comes to the folder. -/
def Folder.IsReached (f : Folder) : Prop :=
  ∃ commands : List Command, (∀ c ∈ commands, ∀ r ∈ c.routes, r.IsNamed) ∧
    (({} : Session).run commands).1.folder = f

/-- Every folder that a session comes to is a tree. -/
theorem Folder.IsReached.isTree {f : Folder} (h : f.IsReached) : f.IsTree := by
  obtain ⟨commands, hcommands, rfl⟩ := h
  exact (Session.folder_run Folder.IsSound.start hcommands).toIsTree

end StyleSieve
