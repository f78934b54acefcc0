import StyleSieve.Css.Lexeme
import StyleSieve.Proofs.Stylesheet.Placed

/-!
# Cascade layers

`@layer` sorts styles into layers.  A layer is the same wherever its names are the same, and a
block without a name makes a layer of its own, so what counts of such a block is its position
(`Group.steps`).  Layers come in the order in which they are first named.

Copies of statements, each in groups of its own, are in the same named layers as the statements
themselves, but no two of them share a layer that has no name (`keepsLayers_of_copies`).

* `Placed.layer`: the layer that a statement is in.
* `layersIn`: the layers that have names, in the order in which they are named.
* `names_layer`: the names of a layer are those of the conditions.
* `KeepsLayers`: what copies of statements keep.
-/

namespace StyleSieve.Stylesheet

open Css (Node Token)

/-- A step from a layer into one within: the one of a name, or that of a block without a name, which
has its position. -/
inductive LayerStep where
  | named (name : Text)
  | anonymous (position : List Nat)
  deriving DecidableEq, Repr

/-- The name of a step. -/
def LayerStep.name? : LayerStep → Option Text
  | named name => some name
  | anonymous _ => none

/-- A layer: the steps into it, from outside. -/
abbrev Layer := List LayerStep

/-- The names of the steps into a layer, if they all have one. -/
def namesOf? (l : Layer) : Option (List Text) := l.mapM LayerStep.name?

/-- The layers that some parameters list, such as `a.b, c`: the names of the steps into each. -/
def listedLayers (params : Text) : List (List Text) :=
  (((Css.Lexeme.ofText params).map (·.token)).splitOnP (· == .comma)).map
    (·.filterMap fun
      | .ident name => some name
      | _ => none)

/-- Whether an at-rule is about layers. -/
def isLayer (name : Text) : Bool := Text.sameLetters name "layer".toList

/-- The steps into the layer of a group; none if the group is no layer. -/
def Group.steps (g : Group) : Layer :=
  if isLayer g.condition.name then
    match (listedLayers g.condition.params).flatten with
    | [] => [.anonymous g.position]
    | names => names.map .named
  else []

/-- The layer that a statement is in. -/
def Placed.layer (p : Placed) : Layer := p.groups.flatMap Group.steps

/-- The layers that some steps pass, the last of them included. -/
def passed (outer : Layer) : Layer → List Layer
  | [] => []
  | s :: steps => (outer ++ [s]) :: passed (outer ++ [s]) steps

/-- The layers that a statement names, if it stands in a layer. -/
def declared (outer : Layer) : Node → List Layer
  | .atRule name params none _ _ _ =>
    if isLayer name then
      (listedLayers params).flatMap fun names => passed outer (names.map .named)
    else []
  | _ => []

/-- The layers around a statement, from outside, and those that it names. -/
def Placed.layers (p : Placed) : List Layer := passed [] p.layer ++ declared p.layer p.node

/-- The layers with names around some statements and in them, in order. -/
def namedLayers (ps : List Placed) : List (List Text) :=
  (ps.flatMap Placed.layers).filterMap namesOf?

/-- The layers with names of a stylesheet, in the order in which they are named. -/
def layersIn (nodes : List Node) : List (List Text) := namedLayers (placed nodes)

/-- All steps into a layer have names. -/
def IsNamed (l : Layer) : Prop := ∀ s ∈ l, s.name? ≠ none

variable {l l' outer outer' : Layer} {p q p' q' : Placed} {k : List Nat}

/-! ### Names -/

/-- With the same names, all of them there, layers are the same. -/
theorem eq_of_names (h : l.map LayerStep.name? = l'.map LayerStep.name?) (hl : IsNamed l) :
    l = l' := by
  induction l generalizing l' with
  | nil => exact (List.map_eq_nil_iff.1 h.symm).symm
  | cons s l ih =>
      obtain ⟨s', l', rfl, hs, hrest⟩ := List.map_eq_cons_iff.1 h.symm
      obtain ⟨hnamed, hl⟩ := List.forall_mem_cons.1 hl
      rw [ih hrest.symm hl]
      cases s with
      | anonymous position => exact absurd rfl hnamed
      | named name =>
          cases s' with
          | anonymous position => cases hs
          | named name' => exact congrArg (LayerStep.named · :: l') (Option.some.inj hs.symm)

theorem isNamed_congr (h : l.map LayerStep.name? = l'.map LayerStep.name?) :
    IsNamed l ↔ IsNamed l' := by
  have hmap (l : Layer) : IsNamed l ↔ none ∉ l.map LayerStep.name? := by
    simp [IsNamed, eq_comm]
  rw [hmap, hmap, h]

theorem namesOf?_congr (h : l.map LayerStep.name? = l'.map LayerStep.name?) :
    namesOf? l = namesOf? l' := by
  have hmap (l : Layer) : namesOf? l = (l.map LayerStep.name?).mapM id := by
    rw [List.mapM_map]
    rfl
  rw [hmap, hmap, h]

/-- The names of the steps into a group, wherever it stands. -/
def namesWithin (c : Condition) : List (Option Text) := (Group.steps ⟨c, []⟩).map LayerStep.name?

theorem names_steps (g : Group) : g.steps.map LayerStep.name? = namesWithin g.condition := by
  unfold namesWithin Group.steps
  split
  · cases (listedLayers g.condition.params).flatten <;> rfl
  · rfl

/-- The names of a layer are those of the conditions. -/
theorem names_layer (p : Placed) :
    p.layer.map LayerStep.name? = p.conditions.flatMap namesWithin := by
  rw [Placed.layer, List.map_flatMap, Placed.conditions, List.flatMap_map]
  exact List.flatMap_congr fun g _ => names_steps g

theorem names_passed (houter : outer.map LayerStep.name? = outer'.map LayerStep.name?)
    (h : l.map LayerStep.name? = l'.map LayerStep.name?) :
    (passed outer l).filterMap namesOf? = (passed outer' l').filterMap namesOf? := by
  induction l generalizing l' outer outer' with
  | nil => rw [List.map_eq_nil_iff.1 h.symm]; rfl
  | cons s l ih =>
      obtain ⟨s', l', rfl, hs, hrest⟩ := List.map_eq_cons_iff.1 h.symm
      have hnext : (outer ++ [s]).map LayerStep.name? = (outer' ++ [s']).map LayerStep.name? := by
        rw [List.map_append, List.map_append, houter, List.map_singleton, List.map_singleton, hs]
      rw [passed, passed, List.filterMap_cons, List.filterMap_cons, namesOf?_congr hnext,
        ih hnext hrest.symm]

/-- Like statements under the same conditions name the same layers. -/
theorem names_layers (hconditions : q.conditions = p.conditions) (halike : Alike q.node p.node) :
    q.layers.filterMap namesOf? = p.layers.filterMap namesOf? := by
  have hlayer : q.layer.map LayerStep.name? = p.layer.map LayerStep.name? := by
    rw [names_layer, names_layer, hconditions]
  have hdeclared : (declared q.layer q.node).filterMap namesOf? =
      (declared p.layer p.node).filterMap namesOf? := by
    obtain ⟨groups, n⟩ := q
    obtain ⟨groups', n'⟩ := p
    cases halike with
    | rule => rfl
    | @atRule name params block =>
        cases block with
        | some source => rfl
        | none =>
            simp only [declared]
            split
            · rw [List.filterMap_flatMap, List.filterMap_flatMap]
              exact List.flatMap_congr fun names _ => names_passed hlayer rfl
            · rfl
  rw [Placed.layers, Placed.layers, List.filterMap_append, List.filterMap_append,
    names_passed rfl hlayer, hdeclared]

/-! ### Copies -/

/-- A statement is said again under the same conditions. -/
structure SaysAgain (p q : Placed) : Prop where
  conditions : q.conditions = p.conditions
  alike : Alike q.node p.node

theorem SaysAgain.names (h : SaysAgain p q) :
    q.layer.map LayerStep.name? = p.layer.map LayerStep.name? := by
  rw [names_layer, names_layer, h.conditions]

/-- A layer without a name has the position of a group. -/
theorem exists_group (h : .anonymous k ∈ p.layer) : ∃ g ∈ p.groups, g.position = k := by
  obtain ⟨g, hg, hstep⟩ := List.mem_flatMap.1 h
  refine ⟨g, hg, ?_⟩
  unfold Group.steps at hstep
  split at hstep
  · split at hstep
    · cases List.mem_singleton.1 hstep
      rfl
    · simp at hstep
  · cases hstep

/-- Statements that are said again in groups apart are in the same layer if they were, and if that
has a name. -/
theorem layer_eq_iff (hq : SaysAgain p q) (hq' : SaysAgain p' q')
    (hapart : ∀ g ∈ q.groups, ∀ g' ∈ q'.groups, g.position ≠ g'.position) :
    q.layer = q'.layer ↔ p.layer = p'.layer ∧ IsNamed p.layer := by
  constructor
  · intro h
    have hnamed : IsNamed q.layer := by
      intro s hs
      cases s with
      | named name => exact Option.some_ne_none name
      | anonymous position =>
          obtain ⟨g, hg, hposition⟩ := exists_group hs
          obtain ⟨g', hg', hposition'⟩ := exists_group (h ▸ hs)
          exact absurd (hposition.trans hposition'.symm) (hapart g hg g' hg')
    have hp : IsNamed p.layer := (isNamed_congr hq.names).1 hnamed
    exact ⟨eq_of_names (hq.names.symm.trans (h ▸ hq'.names)) hp, hp⟩
  · rintro ⟨h, hnamed⟩
    exact eq_of_names (hq.names.trans (h ▸ hq'.names.symm)) ((isNamed_congr hq.names).2 hnamed)

/-- What copies of some statements, each in groups of its own, keep of their layers. -/
structure KeepsLayers (statements : List Placed) (copies : List Node) : Prop where
  /-- The copies say the same statements, in order and under the same conditions. -/
  again : List.Forall₂ SaysAgain statements (placed copies)
  /-- Two copies are in one layer if the statements are, and if that has a name. -/
  layers : (statements.zip (placed copies)).Pairwise fun x y =>
    (x.2.layer = y.2.layer ↔ x.1.layer = y.1.layer ∧ IsNamed x.1.layer)
  /-- Layers with names come in the order in which the statements name them. -/
  order : layersIn copies = namedLayers statements

/-- A copy of a statement is placed in groups that stand where it stands. -/
theorem placedOf_copy {m : Node} (h : IsCopy p m) (hp : isStatement p.node = true)
    (position : List Nat) :
    ∃ q, placedOf [] position m = [q] ∧ SaysAgain p q ∧
      ∀ g ∈ q.groups, position <+: g.position := by
  obtain ⟨n, hwraps, halike⟩ := h
  obtain ⟨inner, hplaced, hconditions, hposition⟩ :=
    placedOf_wraps hwraps (halike.isStatement_eq.trans hp) [] position
  exact ⟨⟨inner, n⟩, hplaced, ⟨hconditions, halike⟩, hposition⟩

theorem placedIn_copies {ps : List Placed} {ms : List Node} (h : List.Forall₂ IsCopy ps ms)
    (hps : ∀ p ∈ ps, isStatement p.node = true) (k : Nat) :
    List.Forall₂ SaysAgain ps (placedIn [] [] k ms) ∧
      (∀ q ∈ placedIn [] [] k ms, ∀ g ∈ q.groups, ∃ j ≥ k, [j] <+: g.position) ∧
      (ps.zip (placedIn [] [] k ms)).Pairwise fun x y =>
        (x.2.layer = y.2.layer ↔ x.1.layer = y.1.layer ∧ IsNamed x.1.layer) := by
  induction h generalizing k with
  | nil => exact ⟨.nil, fun _ h => (nomatch h), .nil⟩
  | @cons p m ps ms hcopy _ ih =>
      obtain ⟨hp, hps⟩ := List.forall_mem_cons.1 hps
      obtain ⟨q, hplaced, hsays, hposition⟩ := placedOf_copy hcopy hp ([] ++ [k])
      obtain ⟨hrest, hlater, hlayers⟩ := ih hps (k + 1)
      rw [placedIn, hplaced, List.singleton_append, List.zip_cons_cons]
      refine ⟨.cons hsays hrest, List.forall_mem_cons.2 ⟨?_, ?_⟩, .cons ?_ hlayers⟩
      · exact fun g hg => ⟨k, Nat.le_refl k, hposition g hg⟩
      · intro q' hq' g hg
        obtain ⟨j, hj, hprefix⟩ := hlater q' hq' g hg
        exact ⟨j, Nat.le_of_succ_le hj, hprefix⟩
      · rintro ⟨p', q'⟩ hmem
        refine layer_eq_iff hsays (List.forall₂_zip hrest hmem) fun g hg g' hg' heq => ?_
        -- the positions start with different numbers
        obtain ⟨j, hj, hprefix⟩ := hlater q' (List.of_mem_zip hmem).2 g' hg'
        obtain ⟨rest, hrest⟩ := hposition g hg
        obtain ⟨rest', hrest'⟩ := hprefix
        have hhead : k = j :=
          (List.cons.inj (hrest.trans (heq.trans hrest'.symm))).1
        omega

/-- Copies of statements keep their layers. -/
theorem keepsLayers_of_copies {ps : List Placed} {ms : List Node} (h : List.Forall₂ IsCopy ps ms)
    (hps : ∀ p ∈ ps, isStatement p.node = true) : KeepsLayers ps ms := by
  obtain ⟨hagain, -, hlayers⟩ := placedIn_copies h hps 0
  refine ⟨hagain, hlayers, ?_⟩
  have hnames : ∀ x y, SaysAgain x y →
      y.layers.filterMap namesOf? = x.layers.filterMap namesOf? := fun x y hxy =>
    names_layers hxy.conditions hxy.alike
  unfold layersIn placed namedLayers
  rw [List.filterMap_flatMap, List.filterMap_flatMap]
  generalize placedIn [] [] 0 ms = qs at hagain
  clear hlayers h hps
  induction hagain with
  | nil => rfl
  | cons hxy _ ih => rw [List.flatMap_cons, List.flatMap_cons, ih, hnames _ _ hxy]

end StyleSieve.Stylesheet
