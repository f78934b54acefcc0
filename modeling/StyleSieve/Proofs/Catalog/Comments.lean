import StyleSieve.Proofs.Catalog.Index
import StyleSieve.Proofs.Catalog.Lenient
import StyleSieve.Proofs.Selector.Comments
import StyleSieve.Proofs.Stylesheet.Declared

/-!
# Rules with comments in their lists

The body of a rule is chosen for a page that uses a branch of its list.  Comments between the
branches are harmless or they are not (`Spaced.Harmless`).

* `selects_commented`: where they are, the body is chosen for each page that it is chosen for
  without them.
* `selects_commented_differs`: where they are not, it may be lost.
-/

namespace StyleSieve.Catalog

open Selector (Spaced branches commaList opening parts)
open Stylesheet (StyleRule readLeniently settingOf)

variable {files : List StyleFile} {file : StyleFile} {number : Nat} {strict : Bool}
  {name css : Text} {r : StyleRule} {xs : List Spaced}

/-- **Harmless comments do not narrow what a rule is for.**  Of a rule whose list has comments that
leave nothing open, the body is chosen for each page that uses a branch of the list without the
comments, if those beside that branch are harmless. -/
theorem selects_commented (hfile : files[number]? = some file)
    (hread : Stylesheet.read strict number name css = .ok file.sheet)
    (hlength : 2 * css.length < Location.limit) (hr : r ∈ StyleRule.ofText css)
    (hselector : r.selector = commaList (xs.map Spaced.text)) (hne : xs ≠ [])
    (hclosed : ∀ x ∈ xs, x.Closed) :
    ∃ id body, file.sheet.body? id = some body ∧
      body.settings = (Css.declarations r.stop r.content).map settingOf ∧
        ∀ b ∈ branches (commaList (xs.map Spaced.bare)),
          (∀ x ∈ xs, x.branch = b → x.Harmless) →
            ∀ usage : Usage, usage.admits (parts b).pieces = true →
              ⟨number, id⟩ ∈ (ofFiles files).select usage := by
  have hbranches : branches r.selector ≠ [] := by
    obtain ⟨x, hx⟩ := List.exists_mem_of_ne_nil xs hne
    obtain ⟨t, -, hmem⟩ := Selector.exists_mem_branches hclosed hx
    rw [hselector]
    exact List.ne_nil_of_mem hmem
  obtain ⟨id, body, hbody, hsettings, hall⟩ :=
    Stylesheet.exists_body hlength hr hbranches number
  rw [← Stylesheet.eq_of_read hread] at hbody hall
  refine ⟨id, body, hbody, hsettings, fun b hb hharmless usage hadmits => ?_⟩
  obtain ⟨branch, hbranch, hadmits⟩ := Selector.exists_admits hclosed hb hharmless hadmits
  obtain ⟨a, ha, -, hparts, -, hglobal, rfl⟩ := hall branch (hselector ▸ hbranch)
  exact (mem_select_file hfile).2 ⟨a, ha, hglobal, rfl, by rwa [hparts]⟩

/-- A comment with commas and quotes behind a branch, and one that starts with a blank in front of
the next. -/
theorem selects_commented_base :
    let css := ".a /* see \"x, y\", z */, /* base */ .b \x7b color: red \x7d".toList
    ∃ r ∈ StyleRule.ofText css,
      r.selector = ".a /* see \"x, y\", z */, /* base */ .b".toList ∧
        ∃ id, ∀ b ∈ branches ".a ,  .b".toList,
          ∀ usage : Usage, usage.admits (parts b).pieces = true →
            ⟨0, id⟩ ∈ (lenient [("a.css".toList, css)]).select usage := by
  simp -zeta only [String.reduceToList]
  intro css
  let a : Spaced :=
    { before := []
      branch := ['.', 'a']
      behind := [.space ' ' rfl, .comment [' ', 's', 'e', 'e', ' ', '\x22', 'x', ',', ' ', 'y',
        '\x22', ',', ' ', 'z', ' '] (by decide +kernel)]
      whole := ⟨⟨rfl, rfl⟩, by decide, ⟨by decide, by decide, trivial⟩, rfl⟩ }
  let b : Spaced :=
    { before := [.space ' ' rfl, .comment [' ', 'b', 'a', 's', 'e', ' '] (by decide +kernel),
        .space ' ' rfl]
      branch := ['.', 'b']
      behind := []
      whole := ⟨⟨rfl, rfl⟩, by decide, ⟨by decide, by decide, trivial⟩, rfl⟩ }
  have hclosed : ∀ x ∈ [a, b], x.Closed := List.forall_mem_cons.2
    ⟨⟨by decide +kernel, by decide +kernel⟩,
      List.forall_mem_singleton.2 ⟨by decide +kernel, by decide +kernel⟩⟩
  have ha : a.Harmless := by
    have hlead : a.lead = [] := by decide +kernel
    have hopening : opening a.lead = [] := by rw [hlead]; rfl
    refine ⟨?_, ?_, .inl ?_, fun h => absurd h (by decide +kernel)⟩
    · rw [hlead]
      exact fun _ h => nomatch h
    · rw [hopening]
      exact fun _ h => nomatch h
    · rw [hopening]
      exact fun _ h => nomatch h
  have hb : b.Harmless := by
    have hhead : b.lead.head? = some '/' := by decide +kernel
    have hopening : opening b.lead = ['/', '*'] := by decide +kernel
    refine ⟨?_, ?_, .inl ?_, fun h => absurd h (by decide +kernel)⟩
    · rw [hhead]
      rintro c ⟨⟩
      rfl
    · rw [hopening]
      exact List.forall_mem_cons.2 ⟨by decide, List.forall_mem_singleton.2 (by decide)⟩
    · rw [hopening]
      exact List.forall_mem_cons.2 ⟨rfl, List.forall_mem_singleton.2 rfl⟩
  have hharmless : ∀ x ∈ [a, b], x.Harmless :=
    List.forall_mem_cons.2 ⟨ha, List.forall_mem_singleton.2 hb⟩
  have hrule : ∃ r ∈ StyleRule.ofText css, r.selector = commaList ([a, b].map Spaced.text) := by
    decide +kernel
  obtain ⟨r, hr, hselector⟩ := hrule
  have hfile : [(⟨"a.css".toList, readLeniently 0 css⟩ : StyleFile)][0]? = some _ := rfl
  have hread : Stylesheet.read false 0 "a.css".toList css = .ok (readLeniently 0 css) := rfl
  obtain ⟨id, body, -, -, h⟩ := selects_commented hfile hread (by decide +kernel) hr hselector
    (List.cons_ne_nil a [b]) hclosed
  exact ⟨r, hr, hselector, id, fun c hc => h c hc fun x hx _ => hharmless x hx⟩

/-- The compound ends in a comment in front of the branch, behind a name; a quote in a comment takes
the comma; a branch without keys gets one of a comment. -/
theorem selects_commented_differs :
    let chosen := fun css : Text =>
      (lenient [("a.css".toList, css)]).select (.ofKeys [".b".toList])
    chosen ".a, .b \x7b color: red \x7d".toList ≠ [] ∧
      chosen ".a,/*x */.b \x7b color: red \x7d".toList = [] ∧
      chosen ".a /* don\x27t */, .b \x7b color: red \x7d".toList = [] ∧
      chosen "*, .a \x7b color: red \x7d".toList ≠ [] ∧
      chosen "*/*x*/, .a \x7b color: red \x7d".toList = [] := by
  simp -zeta only [String.reduceToList]
  decide +kernel

end StyleSieve.Catalog
