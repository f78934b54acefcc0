import StyleSieve.Proofs.Markup.Grammar
import StyleSieve.Proofs.Markup.Scanner

/-!
# A scanner reads the grammar

A scanner that reads whole items is back between tags and has named exactly the keys of their start
tags.  The proof follows the grammar: `Goes` says what bytes within an item do, `Ends` what the rest
of a start tag does, and each rule is a row of the two.

* `Attrs.ends`, `StartTag.ends`: the rest of a start tag, and a whole one.
* `StartTag.goes_script`, `Items.run`: a script, and whole items.
-/

namespace StyleSieve.Markup

namespace Scanner

/-- The keys that `bytes` name, read from state `s` on. -/
def harvest (s : Scanner) (bytes : Bytes) : List Text := (s.run bytes).2.filterMap (·.key)

/-- Read from `s`, the bytes lead to `t` and name `keys`.  No style tag ends in them. -/
structure Goes (s : Scanner) (bytes : Bytes) (t : Scanner) (keys : List Text) : Prop where
  state : (s.run bytes).1 = t
  keys : s.harvest bytes = keys
  silent : s.Silent bytes

/-- Read from `s`, the bytes are the rest of a start tag and name `keys`. -/
structure Ends (s : Scanner) (bytes : Bytes) (tag : TagKind) (keys : List Text) : Prop where
  state : (s.run bytes).1 = (closeTag tag none).1
  keys : s.harvest bytes = keys
  opens : if tag = .style then s.Opens bytes else s.Silent bytes

variable {s t u : Scanner} {a bytes : Bytes} {ks ks' : List Text} {b : UInt8} {tag : TagKind}

theorem harvest_append : s.harvest (a ++ bytes) = s.harvest a ++ (s.run a).1.harvest bytes := by
  simp only [harvest, run_append, List.filterMap_append]

theorem Goes.nil (s : Scanner) : s.Goes [] s [] := ⟨rfl, rfl, fun _ h => nomatch h⟩

/-- A byte that completes no key, or one. -/
theorem Goes.byte {k : Option Text} (h : s.step b = (t, { key := k })) :
    s.Goes [b] t k.toList := by
  refine ⟨by simp [run, h], ?_, by simp [Silent, run, h]⟩
  cases k <;> simp [harvest, run, h]

theorem Goes.step (h : s.step b = (t, {})) : s.Goes [b] t [] := .byte h

theorem Goes.trans (h : s.Goes a t ks) (h' : t.Goes bytes u ks') :
    s.Goes (a ++ bytes) u (ks ++ ks') := by
  obtain ⟨rfl, rfl, hq⟩ := h
  exact ⟨by rw [run_append, h'.state], by rw [harvest_append, h'.keys],
    silent_append.2 ⟨hq, h'.silent⟩⟩

theorem Goes.snoc (h : s.Goes a t ks) (hb : t.step b = (u, {})) : s.Goes (a ++ [b]) u ks := by
  have h' := h.trans (.step hb)
  rwa [List.append_nil] at h'

theorem Goes.cons (hb : s.step b = (t, {})) (h : t.Goes bytes u ks) : s.Goes (b :: bytes) u ks :=
  (Goes.step hb).trans h

theorem opens_append (hq : s.Silent a) (h : (s.run a).1.Opens bytes) : s.Opens (a ++ bytes) := by
  obtain ⟨c, b, rfl, hc, hb⟩ := h
  refine ⟨a ++ c, b, (List.append_assoc ..).symm, silent_append.2 ⟨hq, hc⟩, ?_⟩
  rwa [run_append]

theorem Goes.ends (h : s.Goes a t ks) (h' : t.Ends bytes tag ks') :
    s.Ends (a ++ bytes) tag (ks ++ ks') := by
  obtain ⟨rfl, rfl, hq⟩ := h
  obtain ⟨hstate, hkeys, hopens⟩ := h'
  refine ⟨by rw [run_append, hstate], by rw [harvest_append, hkeys], ?_⟩
  split at hopens
  case isTrue e =>
    rw [if_pos e]
    exact opens_append hq hopens
  case isFalse e =>
    rw [if_neg e]
    exact silent_append.2 ⟨hq, hopens⟩

theorem Ends.close (h : s.step b = closeTag tag none) : s.Ends [b] tag [] := by
  cases tag with
  | style =>
      exact ⟨by simp [run, h, closeTag], by simp [harvest, run, h, closeTag],
        [], b, rfl, fun _ h => (nomatch h), by simp [run, h, closeTag]⟩
  | script | other =>
      exact ⟨by simp [run, h, closeTag], by simp [harvest, run, h, closeTag],
        by simp [Silent, run, h, closeTag]⟩

/-- Two states that read `bytes` alike, but for the keys. -/
theorem Ends.of_run (hs : s.Ends bytes tag ks) (hstate : (t.run bytes).1 = (s.run bytes).1)
    (hopens : (t.run bytes).2.map (·.opensStyle) = (s.run bytes).2.map (·.opensStyle)) :
    t.Ends bytes tag (t.harvest bytes) := by
  refine ⟨hstate.trans hs.state, rfl, ?_⟩
  have h := hs.opens
  split at h
  case isTrue e => rwa [if_pos e, opens_iff, hopens, ← opens_iff]
  case isFalse e =>
    rw [if_neg e]
    intro x hx
    have hmem := List.mem_map_of_mem (f := Sighting.opensStyle) hx
    rw [hopens] at hmem
    obtain ⟨y, hy, hyx⟩ := List.mem_map.1 hmem
    exact hyx ▸ h y hy

theorem beforeAttr_key (tag : TagKind) (b : UInt8) :
    ((Scanner.beforeAttr tag).step b).2.key = none := by
  simp only [step]
  split
  case h_1 => cases tag <;> rfl
  all_goals rfl

/-- A byte that completes a key and counts as if an attribute could start there. -/
theorem Ends.behind {tag' : TagKind} {k : Option Text}
    (h : t.step b =
      (((Scanner.beforeAttr tag').step b).1,
        { ((Scanner.beforeAttr tag').step b).2 with key := k }))
    (hs : (Scanner.beforeAttr tag').Ends (b :: bytes) tag ks) :
    t.Ends (b :: bytes) tag (k.toList ++ ks) := by
  have ht := hs.of_run (t := t) (by simp only [run, h]) (by simp only [run, h, List.map_cons])
  have hkeys : t.harvest (b :: bytes) = k.toList ++ ks := by
    rw [← hs.keys]
    cases k <;> simp [harvest, run, h, beforeAttr_key]
  rwa [hkeys] at ht

/-! ### Names -/

theorem pushByte_take (word : Bytes) (b : UInt8) :
    pushByte (word.take maxName) b = (word ++ [b]).take maxName := by
  unfold pushByte
  rw [List.take_append]
  split
  case isTrue h =>
    rw [List.length_take] at h
    have hlen : word.length < maxName := by omega
    obtain ⟨k, hk⟩ : ∃ k, maxName - word.length = k + 1 := ⟨maxName - word.length - 1, by omega⟩
    rw [hk, List.take_succ_cons, List.take_nil]
  case isFalse h =>
    rw [List.length_take] at h
    rw [Nat.sub_eq_zero_of_le (by omega), List.take_zero, List.append_nil]

theorem keptName_snoc (n : Bytes) (b : UInt8) :
    pushByte (keptName n) (lowerByte b) = keptName (n ++ [b]) := by
  rw [keptName, keptName, pushByte_take, List.map_append, List.map_singleton]

theorem keptName_singleton (b : UInt8) : keptName [b] = [lowerByte b] := rfl

theorem goes_tagName {n : Bytes} (h : IsTagName n) :
    tagOpen.Goes n (.tagName (keptName n)) [] := by
  induction h with
  | @letter b hb =>
      refine .step ?_
      rw [keptName_singleton]
      simp only [step, hb]
  | @more n b _ hb ih =>
      refine ih.snoc ?_
      rw [← keptName_snoc]
      simp only [step]
      split <;> simp_all [Mark.endsName]

theorem goes_attrName {n : Bytes} (h : IsAttrName n) (tag : TagKind) :
    (Scanner.beforeAttr tag).Goes n (.attrName tag (keptName n)) [] := by
  induction h with
  | @first b hb =>
      refine .step ?_
      rw [keptName_singleton]
      simp only [step]
      split <;> simp_all [Mark.endsName]
  | @more n b _ hb he ih =>
      refine ih.snoc ?_
      rw [← keptName_snoc]
      simp only [step]
      split <;> simp_all [Mark.endsName]

/-- Bytes of a kind that change nothing. -/
theorem goes_while {p : UInt8 → Prop} {w : Bytes} (hs : ∀ b, p b → s.step b = (s, {}))
    (hw : ∀ b ∈ w, p b) : s.Goes w s [] := by
  induction w with
  | nil => exact .nil _
  | cons b w ih =>
      obtain ⟨hb, hw⟩ := List.forall_mem_cons.1 hw
      exact .cons (hs b hb) (ih hw)

theorem goes_afterAttr {w : Bytes} (hw : AllSpaces w) (tag : TagKind) (attr : AttrKind) :
    (Scanner.afterAttr tag attr).Goes w (.afterAttr tag attr) [] :=
  goes_while (fun b hb => by simp only [step, hb]) hw

theorem goes_beforeValue {w : Bytes} (hw : AllSpaces w) (tag : TagKind) (attr : AttrKind) :
    (Scanner.beforeValue tag attr).Goes w (.beforeValue tag attr) [] :=
  goes_while (fun b hb => by simp only [step, hb]) hw

/-- The key that the name of an attribute makes. -/
def nameKey (n : Bytes) : Text := Key.attr (Utf8.decodeLossy (keptName n))

theorem goes_assigns {n t : Bytes} (h : Assigns n t) (tag : TagKind) :
    (Scanner.beforeAttr tag).Goes t (.beforeValue tag (.of (keptName n))) [nameKey n] := by
  obtain ⟨w, w', rfl, hn, hw, hw'⟩ := h
  have hname := goes_attrName hn tag
  have hvalue := goes_beforeValue hw' tag (.of (keptName n))
  cases w with
  | nil =>
      have hequals := hname.trans (.byte (b := 0x3D) (t := .beforeValue tag (.of (keptName n)))
        (k := some (nameKey n)) rfl)
      rw [List.append_nil]
      exact hequals.trans hvalue
  | cons b w =>
      have hb : (Scanner.attrName tag (keptName n)).step b =
          (.afterAttr tag (.of (keptName n)), { key := some (nameKey n) }) := by
        simp only [step, hw b (by simp), attrKey, nameKey]
      have hspaces := goes_afterAttr (w := w) (fun c hc => hw c (List.mem_cons_of_mem _ hc)) tag
        (.of (keptName n))
      have hequals := (hname.trans ((Goes.byte hb).trans hspaces)).snoc (b := 0x3D) rfl
      exact hequals.trans hvalue

/-- A name without a value: its key is known at the byte behind it, and that byte counts as if an
attribute could start there. -/
theorem ends_bare {n w s : Bytes} {b : UInt8} {tag : TagKind} {ks : List Text}
    (hn : IsAttrName n) (hw : AllSpaces w) (hs : Mark.of b ≠ .space) (he : Mark.of b ≠ .equals)
    (hb : w = [] → Mark.of b = .greater ∨ Mark.of b = .slash)
    (h : (Scanner.beforeAttr tag).Ends (b :: s) tag ks) :
    (Scanner.beforeAttr tag).Ends (n ++ w ++ b :: s) tag (nameKey n :: ks) := by
  have hname := goes_attrName hn tag
  cases w with
  | nil =>
      rw [List.append_nil]
      refine hname.ends (.behind (k := some (nameKey n)) ?_ h)
      rcases hb rfl with e | e
      · simp only [step, e]
        cases tag <;> rfl
      · simp only [step, e, attrKey, nameKey]
  | cons c w =>
      have hc : (Scanner.attrName tag (keptName n)).step c =
          (.afterAttr tag (.of (keptName n)), { key := some (nameKey n) }) := by
        simp only [step, hw c (by simp), attrKey, nameKey]
      have hspaces := goes_afterAttr (w := w) (fun c hc => hw c (List.mem_cons_of_mem _ hc)) tag
        (.of (keptName n))
      -- behind a space the next byte counts as if an attribute could start there
      have hnext : (Scanner.afterAttr tag (.of (keptName n))).step b =
          (Scanner.beforeAttr tag).step b := by
        simp only [step]
        split <;> simp_all
      have hrest := h.of_run (t := .afterAttr tag (.of (keptName n)))
        (by simp only [run, hnext]) (by simp only [run, hnext])
      rw [show (Scanner.afterAttr tag (.of (keptName n))).harvest (b :: s) = ks by
        rw [← h.keys]
        simp only [harvest, run, hnext]] at hrest
      exact (hname.trans ((Goes.byte hc).trans hspaces)).ends hrest

/-! ### Values -/

/-- Reads some bytes of a value: the word after them, and the keys that they complete. -/
def valueRun (attr : AttrKind) : (word : Bytes) → Bytes → Bytes × List Text
  | word, [] => (word, [])
  | word, b :: v =>
    let (next, key) := valueByte attr word b
    let (last, keys) := valueRun attr next v
    (last, key.toList ++ keys)

theorem valueRun_snoc (attr : AttrKind) (word v : Bytes) (b : UInt8) :
    valueRun attr word (v ++ [b]) =
      ((valueByte attr (valueRun attr word v).1 b).1,
        (valueRun attr word v).2 ++ (valueByte attr (valueRun attr word v).1 b).2.toList) := by
  induction v generalizing word with
  | nil => simp [valueRun]
  | cons c v ih => simp only [List.cons_append, valueRun, ih, List.append_assoc]

/-- The bytes of a value and then its end complete the keys of the value. -/
theorem valueKeys_eq (attr : AttrKind) (v : Bytes) :
    valueKeys attr v = (valueRun attr [] v).2 ++ (wordKey attr (valueRun attr [] v).1).toList := by
  cases attr with
  | classes =>
      -- from a word `acc` on, which `splitOnPPrepend` keeps in reverse
      have h (acc : Bytes) :
          (List.splitOnPPrepend (fun b => Mark.of b = .space) v acc).filterMap
              (fun word => wordKey .classes (word.take maxName)) =
            (valueRun .classes (acc.reverse.take maxName) v).2 ++
              (wordKey .classes (valueRun .classes (acc.reverse.take maxName) v).1).toList := by
        induction v generalizing acc with
        | nil =>
            simp only [List.splitOnPPrepend_nil, valueRun, List.nil_append, List.filterMap_cons,
              List.filterMap_nil]
            cases wordKey .classes (acc.reverse.take maxName) <;> rfl
        | cons b v ih =>
            by_cases hb : Mark.of b = .space
            · rw [List.splitOnPPrepend_cons_pos (by simpa using hb)]
              have hrest := ih []
              rw [List.splitOnPPrepend_nil_right, List.reverse_nil, List.take_nil] at hrest
              simp only [List.filterMap_cons, hrest, valueRun, valueByte, hb, if_true,
                List.append_assoc]
              cases wordKey .classes (acc.reverse.take maxName) <;> rfl
            · rw [List.splitOnPPrepend_cons_neg (by simpa using hb), ih, List.reverse_cons]
              simp only [valueRun, valueByte, hb, if_false, pushByte_take, Option.toList_none,
                List.nil_append]
      exact h []
  | id =>
      have h (word : Bytes) :
          valueRun .id (word.take maxName) v = ((word ++ v).take maxName, []) := by
        induction v generalizing word with
        | nil => rw [List.append_nil]; rfl
        | cons b v ih =>
            simp only [valueRun, valueByte, pushByte_take, ih, Option.toList_none,
              List.nil_append, List.append_assoc, List.singleton_append]
      have hv := h []
      rw [List.take_nil, List.nil_append] at hv
      rw [hv]
      rfl
  | other =>
      have h (word : Bytes) : (valueRun .other word v).2 = [] := by
        induction v generalizing word with
        | nil => rfl
        | cons b v ih =>
            simp only [valueRun, valueByte, ih]
            rfl
      rw [h]
      rfl

theorem wordKey_nil (attr : AttrKind) : wordKey attr [] = none := by
  cases attr <;> rfl

theorem valueKeys_nil (attr : AttrKind) : valueKeys attr [] = [] := by
  simp only [valueKeys_eq, valueRun, wordKey_nil, Option.toList_none, List.append_nil]

theorem goes_quoted {q : UInt8} {v : Bytes} (hq : q ∉ v) (tag : TagKind) (attr : AttrKind)
    (word : Bytes) :
    (Scanner.quoted tag attr q word).Goes v (.quoted tag attr q (valueRun attr word v).1)
      (valueRun attr word v).2 := by
  induction v generalizing word with
  | nil => exact .nil _
  | cons b v ih =>
      rw [List.mem_cons, not_or] at hq
      refine (Goes.byte (t := .quoted tag attr q (valueByte attr word b).1) ?_).trans (ih hq.2 _)
      simp only [step, if_neg (Ne.symm hq.1)]
      rfl

/-- Only a space completes a word. -/
theorem valueByte_key (attr : AttrKind) (word : Bytes) {b : UInt8} (hb : Mark.of b ≠ .space) :
    (valueByte attr word b).2 = none := by
  cases attr <;> simp [valueByte, hb]

theorem goes_plain {v : Bytes} (h : IsPlainValue v) (tag : TagKind) (attr : AttrKind) :
    (Scanner.beforeValue tag attr).Goes v (.unquoted tag attr (valueRun attr [] v).1)
      (valueRun attr [] v).2 := by
  induction h with
  | @first b hq hg hs =>
      simp only [valueRun, valueByte_key attr _ hs]
      refine .step ?_
      cases hb : Mark.of b <;> simp_all [step]
  | @more v b _ hg hs ih =>
      rw [valueRun_snoc, valueByte_key attr _ hs, Option.toList_none, List.append_nil]
      refine ih.snoc ?_
      cases hb : Mark.of b <;> simp_all [step]

end Scanner

open Scanner

/-! ### Start tags -/

/-- The rest of a start tag names the keys of its attributes. -/
theorem Attrs.ends {as : List Attr} {s : Bytes} (h : Attrs as s) (tag : TagKind) :
    (Scanner.beforeAttr tag).Ends s tag (as.flatMap Attr.keys) := by
  induction h with
  | close => exact .close rfl
  | @gap b as s hb _ ih =>
      refine Goes.ends (a := [b]) (.step ?_) ih
      rcases hb with hb | hb
      all_goals simp only [step, hb]
  | bare hn hw hs he hb _ ih =>
      have h := ends_bare hn hw hs he hb ih
      simpa [Attr.keys, nameKey, valueKeys_nil] using h
  | @missing n t ht =>
      have h := (goes_assigns ht tag).ends (Ends.close (b := 0x3E) rfl)
      simpa [Attr.keys, nameKey, valueKeys_nil] using h
  | @quoted n t v s q as ht hq hv _ ih =>
      have hopen : (Scanner.beforeValue tag (.of (keptName n))).step q =
          (.quoted tag (.of (keptName n)) q [], {}) := by
        simp only [step, hq]
      have hclose : (Scanner.quoted tag (.of (keptName n)) q
          (valueRun (.of (keptName n)) [] v).1).step q = (.beforeAttr tag,
            { key := wordKey (.of (keptName n)) (valueRun (.of (keptName n)) [] v).1 }) := by
        simp only [step, if_true]
      have hvalue := (Goes.cons hopen (goes_quoted hv tag _ _)).trans (.byte hclose)
      have h := ((goes_assigns ht tag).trans hvalue).ends ih
      simpa [Attr.keys, valueKeys_eq, nameKey] using h
  | @plain n t v s b as ht hv hb _ ih =>
      -- the byte behind the value completes a word and counts as if an attribute could start there
      have hvalue := (goes_assigns ht tag).trans (goes_plain hv tag (.of (keptName n)))
      have hnext := Ends.behind (t := .unquoted tag (.of (keptName n))
        (valueRun (.of (keptName n)) [] v).1)
        (k := wordKey (.of (keptName n)) (valueRun (.of (keptName n)) [] v).1) ?_ ih
      · have h := hvalue.ends hnext
        simpa [Attr.keys, valueKeys_eq, nameKey] using h
      · rcases hb with hb | hb
        · simp only [step, hb]
        · simp only [step, hb]
          cases tag <;> rfl

theorem StartTag.ends {t : Tag} {u : Bytes} (h : StartTag t u) :
    Scanner.text.Ends u t.kind t.keys := by
  obtain @⟨n, s, b, as, hn, hb, hs⟩ := h
  have hname := Goes.cons (s := .text) (b := 0x3C) rfl (goes_tagName hn)
  -- the byte behind the name completes it and counts as if an attribute could start there
  have hnext := Ends.behind (t := .tagName (keptName n)) (k := tagKey (keptName n)) ?_
    (hs.ends (.of (keptName n)))
  · exact hname.ends hnext
  · cases e : Mark.of b
    case greater =>
      simp only [step, e]
      cases TagKind.of (keptName n) <;> rfl
    case slash | space => simp only [step, e]
    all_goals simp [e, Mark.endsName] at hb

/-! ### Comments -/

namespace Scanner

/-- The number of dashes at the end. -/
def trailing (c : Bytes) : Nat := (c.reverse.takeWhile (· = 0x2D)).length

theorem trailing_snoc (c : Bytes) (b : UInt8) :
    trailing (c ++ [b]) = if b = 0x2D then trailing c + 1 else 0 := by
  unfold trailing
  rw [List.reverse_append, List.reverse_singleton, List.singleton_append, List.takeWhile_cons]
  by_cases h : b = 0x2D <;> simp [h]

/-- Behind `<!--` and then `c`. -/
def commentState (c : Bytes) : Scanner :=
  if c = [] then .commentStart false
  else if c = [0x2D] then .commentStart true
  else .comment (trailing c)

theorem eq_snoc_of_trailing {c : Bytes} (h : trailing c ≠ 0) :
    ∃ c', c = c' ++ [0x2D] ∧ trailing c = trailing c' + 1 := by
  induction c using List.reverseRecOn with
  | nil => exact absurd rfl h
  | append_singleton c b _ =>
      rw [trailing_snoc] at h ⊢
      split at h
      case isTrue e => exact ⟨c, by rw [e], if_pos e⟩
      case isFalse => exact absurd rfl h

/-- Two dashes at the end, and a `>`, are the end of a comment. -/
theorem commentEnd_of_trailing {c : Bytes} (h : 2 ≤ trailing c) :
    ∃ c', c = c' ++ [0x2D, 0x2D] := by
  obtain ⟨c₁, rfl, h₁⟩ := eq_snoc_of_trailing (c := c) (by omega)
  obtain ⟨c₂, rfl, -⟩ := eq_snoc_of_trailing (c := c₁) (by omega)
  exact ⟨c₂, List.append_assoc ..⟩

theorem commentState_snoc {c : Bytes} (hc : c ≠ []) (b : UInt8) :
    commentState (c ++ [b]) = .comment (trailing (c ++ [b])) := by
  cases c with
  | nil => exact absurd rfl hc
  | cons x c => simp [commentState]

theorem commentState_dash (c : Bytes) :
    (commentState c).step 0x2D = (commentState (c ++ [0x2D]), {}) := by
  by_cases h₀ : c = []
  · subst h₀
    rfl
  rw [commentState_snoc h₀, trailing_snoc]
  by_cases h₁ : c = [0x2D]
  · subst h₁
    rfl
  · simp only [commentState, if_neg h₀, if_neg h₁, step]
    rfl

/-- A byte that does not end the comment. -/
theorem commentState_step {c : Bytes} {b : UInt8} (h : IsCommentBody (c ++ [b])) :
    (commentState c).step b = (commentState (c ++ [b]), {}) := by
  obtain ⟨hend, hgreater, hdash⟩ := h
  by_cases hd : b = 0x2D
  · subst hd
    exact commentState_dash c
  have hd' : Mark.of b ≠ .dash := fun e => hd ((Mark.of_eq_dash b).1 e)
  have ht : trailing (c ++ [b]) = 0 := (trailing_snoc c b).trans (if_neg hd)
  by_cases h₀ : c = []
  · -- a `>` would make the shortest comment
    subst h₀
    have hb : Mark.of b ≠ .greater := fun e => hgreater <| by
      rw [(Mark.of_eq_greater b).1 e]
      exact List.prefix_refl _
    rw [List.nil_append] at ht
    simp only [commentState, step, List.nil_append, if_true, List.cons_ne_nil, if_false,
      List.cons.injEq, hd, false_and, ht]
  rw [commentState_snoc h₀, ht]
  by_cases h₁ : c = [0x2D]
  · -- and here the one with a dash
    subst h₁
    have hb : Mark.of b ≠ .greater := fun e => hdash <| by
      rw [(Mark.of_eq_greater b).1 e]
      exact List.prefix_refl _
    simp only [commentState, step, if_neg h₀, if_true]
  · simp only [commentState, if_neg h₀, if_neg h₁, step]
    split
    case h_1 e => exact absurd e hd'
    case h_2 e =>
      -- a `>` behind two dashes would be the end
      have hlt : ¬ 2 ≤ trailing c := fun h₂ => hend <| by
        obtain ⟨c', rfl⟩ := commentEnd_of_trailing h₂
        rw [(Mark.of_eq_greater b).1 e, List.append_assoc]
        exact (List.suffix_append ..).isInfix
      rw [if_neg hlt]
    case h_3 => rfl

end Scanner

theorem IsCommentBody.of_prefix {c c' : Bytes} (h : IsCommentBody c') (hc : c <+: c') :
    IsCommentBody c :=
  ⟨fun h' => h.noEnd (h'.trans hc.isInfix), fun h' => h.noGreater (h'.trans hc),
    fun h' => h.noDashGreater (h'.trans hc)⟩

theorem IsCommentBody.goes {c : Bytes} (h : IsCommentBody c) :
    (Scanner.commentStart false).Goes c (commentState c) [] := by
  induction c using List.reverseRecOn with
  | nil => exact .nil _
  | append_singleton c b ih =>
      exact (ih (h.of_prefix (List.prefix_append ..))).snoc (commentState_step h)

theorem Comment.goes {c : Bytes} (h : Comment c) :
    (Scanner.commentStart false).Goes c .text [] := by
  cases h with
  | short => exact .step rfl
  | shortDash => exact .cons (t := .commentStart true) rfl (.step rfl)
  | @long c h =>
      have hstate : commentState (c ++ [0x2D, 0x2D]) = .comment (trailing c + 2) := by
        rw [commentState, if_neg (by simp), if_neg (by cases c <;> simp),
          List.append_cons, trailing_snoc, trailing_snoc]
        rfl
      have hend := h.goes.snoc (b := 0x3E) (u := .text) (by
        rw [hstate]
        simp [step, Mark.of])
      simpa [commentEnd] using hend

/-! ### Other items -/

namespace Scanner

theorem ne_greater {b : UInt8} (h : b ≠ 0x3E) : Mark.of b ≠ .greater :=
  fun e => h ((Mark.of_eq_greater b).1 e)

theorem goes_endTag {u : Bytes} (h : 0x3E ∉ u) : endTag.Goes u .endTag [] :=
  goes_while (p := (· ≠ 0x3E)) (fun b hb => by simp only [step, if_neg (ne_greater hb)])
    fun _ hb e => h (e ▸ hb)

theorem goes_bogus {u : Bytes} (h : 0x3E ∉ u) : bogus.Goes u .bogus [] :=
  goes_while (p := (· ≠ 0x3E)) (fun b hb => by simp only [step, if_neg (ne_greater hb)])
    fun _ hb e => h (e ▸ hb)

/-- A declaration, which starts no comment, up to its `>`. -/
theorem goes_declaration {u : Bytes} (h : 0x3E ∉ u) (hd : ¬ [0x2D, 0x2D] <+: u) :
    declaration.Goes (u ++ [0x3E]) .text [] := by
  cases u with
  | nil => exact .step rfl
  | cons b u =>
      rw [List.mem_cons, not_or] at h
      have hb := ne_greater (Ne.symm h.1)
      by_cases hdash : b = 0x2D
      · subst hdash
        refine .cons (t := .declarationDash) rfl ?_
        cases u with
        | nil => exact .step rfl
        | cons c u =>
            rw [List.mem_cons, not_or] at h
            have hc := ne_greater (Ne.symm h.2.1)
            have hc' : Mark.of c ≠ .dash := fun e => hd <| by
              rw [(Mark.of_eq_dash c).1 e]
              exact ⟨u, rfl⟩
            refine .cons (t := .bogus) ?_ ((goes_bogus h.2.2).snoc rfl)
            simp only [step]
      · have hb' : Mark.of b ≠ .dash := fun e => hdash ((Mark.of_eq_dash b).1 e)
        refine .cons (t := .bogus) ?_ ((goes_bogus h.2).snoc rfl)
        simp only [step]

/-- A byte of a script that ends none. -/
theorem script_step {m : Matcher} {b : UInt8} (h : (m.step scriptName b).2 ≠ .found .closing) :
    (Scanner.script m).step b = (.script (m.step scriptName b).1, {}) := by
  simp only [step]

theorem goes_script {m : Matcher} {c : Bytes}
    (h : Signal.found .closing ∉ (m.run scriptName c).2) :
    (Scanner.script m).Goes c (.script (m.run scriptName c).1) [] := by
  induction c generalizing m with
  | nil => exact .nil _
  | cons b c ih =>
      simp only [Matcher.run, List.mem_cons, not_or] at h
      exact .cons (script_step (Ne.symm h.1)) (ih h.2)

/-- The content of a script and its end tag. -/
theorem goes_scriptEnd {c e : Bytes} (hc : Lacks scriptName .closing c) (he : ScriptEnd e) :
    (Scanner.script .idle).Goes (c ++ e) .text [] := by
  have hcontent := goes_script ((Matcher.lacks_iff scriptName_isWord .closing c).2 hc)
  obtain ⟨t, -, hm⟩ := Matcher.holds_run scriptName c
  -- up to its last byte the boundary is content
  have found {n : Bytes} {b : UInt8} (hn : Boundary scriptName .closing (n ++ [b])) :
      (Scanner.script .idle).Goes (c ++ (n ++ [b])) (if b = 0x3E then .text else .endTag) [] := by
    obtain ⟨hq, hfind⟩ := Matcher.find_of_boundary scriptName_isWord hm hn
    refine hcontent.trans ((goes_script (hq .closing)).snoc ?_)
    simp only [step, hfind, Mark.of_eq_greater]
  cases he with
  | short hn => exact found hn
  | long hn hb hu =>
      have hopen := found hn
      rw [if_neg hb] at hopen
      have h := (hopen.trans (goes_endTag hu)).snoc (b := 0x3E) (u := .text) rfl
      simpa using h

end Scanner

/-! ### Whole items -/

namespace Scanner

theorem text_goes_text {s : Bytes} (h : 0x3C ∉ s) : text.Goes s .text [] :=
  goes_while (p := (· ≠ 0x3C))
    (fun b hb => by simp only [step, if_neg (mt (Mark.of_eq_less b).1 hb)])
    fun _ hb e => h (e ▸ hb)

theorem text_goes_endTag {u : Bytes} (h : 0x3E ∉ u) :
    text.Goes (0x3C :: 0x2F :: u ++ [0x3E]) .text [] :=
  .cons rfl (.cons rfl ((goes_endTag h).snoc rfl))

theorem text_goes_instruction {u : Bytes} (h : 0x3E ∉ u) :
    text.Goes (0x3C :: 0x3F :: u ++ [0x3E]) .text [] :=
  .cons rfl (.cons rfl ((goes_bogus h).snoc rfl))

theorem text_goes_declaration {u : Bytes} (h : 0x3E ∉ u) (hd : ¬ [0x2D, 0x2D] <+: u) :
    text.Goes (0x3C :: 0x21 :: u ++ [0x3E]) .text [] :=
  .cons rfl (.cons rfl (goes_declaration h hd))

theorem text_goes_comment {c : Bytes} (h : Comment c) :
    text.Goes (0x3C :: 0x21 :: 0x2D :: 0x2D :: c) .text [] :=
  .cons rfl (.cons rfl (.cons rfl (.cons rfl h.goes)))

end Scanner

/-- Behind a start tag that opens no script the scanner is between tags. -/
theorem StartTag.run {t : Tag} {u : Bytes} (h : StartTag t u) (hk : t.kind ≠ .script) :
    (Scanner.text.run u).1 = .text := by
  rw [h.ends.state]
  cases e : t.kind with
  | script => exact absurd e hk
  | style | other => rfl

/-- A script names the keys of its start tag. -/
theorem StartTag.goes_script {t : Tag} {u c e : Bytes} (h : StartTag t u) (hk : t.kind = .script)
    (hc : Lacks scriptName .closing c) (he : ScriptEnd e) :
    Scanner.text.Goes (u ++ c ++ e) .text t.keys := by
  have hend := h.ends
  rw [hk] at hend
  have hopen : Scanner.text.Goes u (.script .idle) t.keys := ⟨hend.state, hend.keys, hend.opens⟩
  have hscript := hopen.trans (goes_scriptEnd hc he)
  rwa [List.append_nil, ← List.append_assoc] at hscript

/-- A scanner that reads whole items is back between tags, and has named the keys of their start
tags. -/
theorem Items.run {ts : List Tag} {s : Bytes} (h : Items ts s) :
    (Scanner.text.run s).1 = .text ∧ Scanner.text.harvest s = ts.flatMap Tag.keys := by
  -- what leads back between tags can stand before anything
  have before {a s : Bytes} {ks ks' : List Text} (ha : Scanner.text.Goes a .text ks)
      (hs : (Scanner.text.run s).1 = .text ∧ Scanner.text.harvest s = ks') :
      (Scanner.text.run (a ++ s)).1 = .text ∧ Scanner.text.harvest (a ++ s) = ks ++ ks' := by
    rw [run_append, harvest_append, ha.state, ha.keys, hs.2]
    exact ⟨hs.1, rfl⟩
  induction h with
  | nil => exact ⟨rfl, rfl⟩
  | @char b ts s hb _ ih =>
      exact before (a := [b]) (.step (by simp only [step, if_neg hb])) ih
  | again _ ih => exact ih
  | @stray b ts s h₁ h₂ h₃ h₄ h₅ _ ih =>
      refine before (a := [0x3C, b])
        (.cons (t := .tagOpen) rfl (.step ?_)) ih
      simp only [step]
  | endTag hu _ ih => simpa using before (text_goes_endTag hu) ih
  | instruction hu _ ih => simpa using before (text_goes_instruction hu) ih
  | declaration hu hd _ ih => simpa using before (text_goes_declaration hu hd) ih
  | comment hc _ ih => simpa using before (text_goes_comment hc) ih
  | startTag ht hk _ ih =>
      rw [run_append, harvest_append, ht.run hk, ht.ends.keys, List.flatMap_cons, ih.1, ih.2]
      exact ⟨rfl, rfl⟩
  | script ht hk hc he _ ih => exact before (ht.goes_script hk hc he) ih

end StyleSieve.Markup
