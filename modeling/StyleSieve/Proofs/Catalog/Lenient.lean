import StyleSieve.Proofs.Catalog.Refused
import StyleSieve.Proofs.Stylesheet.Entries

/-!
# Catalogs of sources that are not checked

Without validation every source is read, as the file of its position, if there are numbers for all
of them.  The number of its file does not matter for what is written of it.

* `ofSources_lenient`: no source is refused.
* `render_lenient`: what is written of some sources.
* `render_alone`: what is written of one of them is what is written of it taken alone.
-/

namespace StyleSieve.Catalog

open Stylesheet (Statement readLeniently)

/-- The catalog of named sources, whatever stands in them. -/
def lenient (sources : List (Text × Text)) : Catalog :=
  ofFiles (sources.zipIdx.map fun x => ⟨x.1.1, readLeniently x.2 x.1.2⟩)

theorem filesOf_lenient (number : Nat) (sources : List (Text × Text)) :
    filesOf (Stylesheet.read false 0) number sources =
      (sources.zipIdx number).map fun x => ⟨x.1.1, readLeniently x.2 x.1.2⟩ := by
  refine List.map_congr_left fun x _ => ?_
  have hsheet : (readLeniently 0 x.1.2).inFile x.2 = readLeniently x.2 x.1.2 :=
    (Stylesheet.ofNodes_inFile x.2 (Css.Node.ofText x.1.2)).symm
  rw [← hsheet]
  rfl

/-- Without validation no source is refused; only the numbers of the files can run out. -/
theorem ofSources_lenient (skipInvalid : Bool) (sources : List (Text × Text)) :
    ofSources ⟨skipInvalid, true⟩ sources =
      if sources.length ≤ fileLimit then .ok (lenient sources) else .error .tooManyFiles := by
  have hkept (sources : List (Text × Text)) :
      AreKept (Stylesheet.read false 0) skipInvalid sources := fun _ _ => .inr rfl
  rw [ofSources, Bool.not_true, read_eq_asFile]
  split
  next hlength => rw [ofSourcesWith_kept _ (hkept sources) hlength, filesOf_lenient, lenient]
  next hlength => exact ofSourcesWith_tooMany (hkept _) (Nat.not_le.1 hlength)

theorem render_lenient (sources : List (Text × Text)) (bodies : List BodyRef) (globals : Bool) :
    (lenient sources).render bodies globals =
      sources.zipIdx.flatMap fun x =>
        (readLeniently x.2 x.1.2).render (isWanted bodies globals x.2) := by
  have hzip (file : Nat) (sources : List (Text × Text)) :
      (((sources.zipIdx file).map fun x =>
          (⟨x.1.1, readLeniently x.2 x.1.2⟩ : StyleFile)).zipIdx file).flatMap
        (fun x => x.1.sheet.render (isWanted bodies globals x.2)) =
      (sources.zipIdx file).flatMap fun x =>
        (readLeniently x.2 x.1.2).render (isWanted bodies globals x.2) := by
    induction sources generalizing file with
    | nil => rfl
    | cons source sources ih =>
        rw [List.zipIdx_cons, List.map_cons, List.zipIdx_cons, List.flatMap_cons, List.flatMap_cons,
          ih]
  exact hzip 0 sources

theorem render_lenient_singleton (source : Text × Text) (bodies : List BodyRef) (globals : Bool) :
    (lenient [source]).render bodies globals =
      (readLeniently 0 source.2).render (isWanted bodies globals 0) := by
  rw [render_lenient]
  exact List.append_nil _

/-- The bodies of one file, as that file is numbered if there is no other. -/
def alone (file : Nat) (bodies : List BodyRef) : List BodyRef :=
  (bodies.filter (·.file == file)).map fun ref => ⟨0, ref.body⟩

theorem contains_alone (file : Nat) (bodies : List BodyRef) (id : BodyId) :
    bodies.contains ⟨file, id⟩ = (alone file bodies).contains ⟨0, id⟩ := by
  have hmem : (⟨file, id⟩ : BodyRef) ∈ bodies ↔ ⟨0, id⟩ ∈ alone file bodies := by
    constructor
    · intro h
      exact List.mem_map.2 ⟨⟨file, id⟩, List.mem_filter.2 ⟨h, beq_self_eq_true file⟩, rfl⟩
    · intro h
      obtain ⟨⟨number, body⟩, hmem, hbody⟩ := List.mem_map.1 h
      obtain ⟨hbodies, hnumber⟩ := List.mem_filter.1 hmem
      obtain rfl : number = file := by simpa using hnumber
      cases hbody
      exact hbodies
  rw [Bool.eq_iff_iff, List.contains_iff_mem, List.contains_iff_mem, hmem]

/-- What is written of a source is what is written of it taken alone. -/
theorem render_alone {source : Text × Text} (h : 2 * source.2.length < Location.limit) (file : Nat)
    (bodies : List BodyRef) (globals : Bool) :
    (readLeniently file source.2).render (isWanted bodies globals file) =
      (lenient [source]).render (alone file bodies) globals := by
  rw [render_lenient_singleton, Stylesheet.readLeniently_eq h, Stylesheet.readLeniently_eq h]
  exact Stylesheet.render_alike (Statement.isUsed_ofText file _) (Statement.isUsed_ofText 0 _)
    ((Stylesheet.entries_ofText file _).trans (Stylesheet.entries_ofText 0 _).symm)
    (contains_alone file bodies) globals

end StyleSieve.Catalog
