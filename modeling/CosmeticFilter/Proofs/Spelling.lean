import CosmeticFilter.Proofs.Script
import CosmeticFilter.Proofs.Trimming

/-!
# What the text of a selector decides about its tree

A script (`Selector.Script`) reads the text of a list and writes its tree back. Two facts follow from what
its edits may do:

* a pseudo-class in the tree is spelled out in the text, up to the case of its name (`Script.spelled`);
* a character that is blank but no white space of selectors is neither dropped nor inserted, so that tree and
  text have it equally often (`Script.count_source`).

The second one tells texts apart that differ in such characters: they do not have the same tree
(`count_eq_of_compile`).
-/

namespace CosmeticFilter

namespace Text

variable {c : Char}

/-- No letter is blank. -/
theorem toNat_of_isBlank (h : isBlank c = true) : c.toNat < 'A'.toNat ∨ 'z'.toNat < c.toNat := by
  simp only [isBlank, blankRanges, List.any_cons, List.any_nil, Bool.or_false, Bool.or_eq_true, Bool.and_eq_true,
    decide_eq_true_eq] at h
  have hA : 'A'.toNat = 65 := rfl
  have hz : 'z'.toNat = 122 := rfl
  omega

theorem toLower_eq_iff {d : Char} (hc : isBlank c = true) : d.toLower = c ↔ d = c := by
  have hletter := toNat_of_isBlank hc
  constructor
  · intro h
    rcases toLower_cases d with heq | ⟨hlow, hhigh⟩
    · rw [← heq, h]
    · rw [h] at hlow hhigh
      have hlow : 'a'.toNat ≤ c.toNat := hlow
      have hhigh : c.toNat ≤ 'z'.toNat := hhigh
      have hA : 'A'.toNat ≤ 'a'.toNat := by decide
      omega
  · rintro rfl
    unfold Char.toLower
    split
    · next h =>
      have hlow : 'A'.toNat ≤ d.toNat := h.1
      have hhigh : d.toNat ≤ 'Z'.toNat := h.2
      have hZ : 'Z'.toNat ≤ 'z'.toNat := by decide
      omega
    · rfl

theorem count_lower (hc : isBlank c = true) (t : Text) : (lower t).count c = t.count c := by
  rw [lower, List.count, List.countP_map]
  refine List.countP_congr fun d _ => ?_
  simp [toLower_eq_iff hc]

/-- Trimming takes only characters of the class away. -/
theorem count_trim {p : Char → Bool} (hc : p c = false) (t : Text) : (trim p t).count c = t.count c := by
  obtain ⟨front, back, ht, hfront, hback⟩ := exists_eq_trim p t
  have hzero : ∀ part : Text, (∀ d ∈ part, p d = true) → part.count c = 0 := by
    intro part hpart
    refine List.count_eq_zero.2 fun hmem => ?_
    rw [hpart c hmem] at hc
    cases hc
  conv_rhs => rw [ht, List.count_append, List.count_append, hzero front hfront, hzero back hback]
  omega

end Text

namespace Selector

open Edit

/-! ### Blank characters -/

section

variable {c : Char} (hblank : Text.isBlank c = true) (hspace : Text.isSpace c = false)

include hspace in
theorem Edit.count_drop {d : Char} (hd : Text.isSpace d = true) : (sourceText (.drop d)).count c = 0 := by
  refine List.count_eq_zero.2 fun hmem => ?_
  rw [List.mem_singleton.1 hmem, hd] at hspace
  cases hspace

include hblank hspace in
theorem Anchor.count_eq_zero {root start followed : Bool} {before after : List Edit} {anchor : Text}
    (h : Anchor root start followed before after anchor) : anchor.count c = 0 := by
  -- where an anchor is blank, it is a space
  have hanchor : anchor.all (fun d => !Text.isBlank d || Text.isSpace d) = true := by
    cases h with
    | atStart => rfl
    | afterCombinator => rfl
    | belowRoot => rfl
    | beforeElement => rfl
    | pathRoot => rfl
  refine List.count_eq_zero.2 fun hmem => ?_
  have hc := List.all_eq_true.1 hanchor c hmem
  rw [hblank, hspace] at hc
  cases hc

include hblank hspace in
theorem PlainScript.count_source {root start followed : Bool} {text : Text} {script : List Edit}
    (h : PlainScript root start followed text script) : (source script).count c = (Edit.written script).count c := by
  have hedit : ∀ e ∈ script, e.sourceText.count c = e.writtenText.count c := by
    intro e he
    obtain ⟨before, after, heq⟩ := List.append_of_mem he
    cases e with
    | keep d => rfl
    | drop d => exact Edit.count_drop hspace (h.outside before d after heq).1
    | lower word => exact absurd he (h.plain word)
    | insert anchor => exact ((h.anchors before anchor after heq).count_eq_zero hblank hspace).symm
  rw [source, Edit.written, List.count_flatMap, List.count_flatMap]
  exact congrArg List.sum (List.map_congr_left hedit)

include hblank hspace in
/-- A script neither drops nor inserts characters that are blank and no white space of selectors. -/
theorem Script.count_source {root : Bool} {finished : SelectorList} {parts : Selector} {script : List Edit}
    (h : Script root finished parts script) : (source script).count c = (Edit.written script).count c := by
  have hanchored : ∀ {root finished parts anchored own}, AnchorScript root finished parts anchored own →
      (source own).count c = (Edit.written own).count c := by
    intro root finished parts anchored own hown
    cases hown with
    | none hne => rfl
    | plain hplain => exact hplain.count_source hblank hspace
  induction h with
  | start => rfl
  | space h hdrop ih => simp [ih, Edit.count_drop hspace hdrop, writtenText]
  | plain h hplain ih => simp [ih, hplain.count_source hblank hspace]
  | absolute h hanchor ih =>
    simp [ih, hanchored hanchor, Text.count_lower hblank, sourceText, writtenText, List.count_cons]
  | relative h hanchor hinner ih ihinner =>
    simp [ih, ihinner, hanchored hanchor, Text.count_lower hblank, sourceText, writtenText, List.count_cons]
  | comma h ih => simp [ih, sourceText, writtenText]

end

/-! ### Names -/

/-- The absolute pseudo-classes of a selector are spelled out in the text. -/
def Spelled (text : Text) (selector : Selector) : Prop :=
  ∀ name argument, .absolute name argument ∈ selector →
    ∃ word, Text.lower word = name ∧ ':' :: word ++ '(' :: argument ++ [')'] <:+: text

namespace Spelled

variable {text : Text} {selector : Selector} {names : List Text}

theorem nil : Everywhere (fun _ => Spelled text) names [] := ⟨by simp [Spelled], by simp⟩

theorem mono {text' : Text} (h : Everywhere (fun _ => Spelled text) names selector) (htext : text <:+: text') :
    Everywhere (fun _ => Spelled text') names selector := by
  refine h.mono fun names selector hselector name argument hmem => ?_
  obtain ⟨word, hword, hspelled⟩ := hselector name argument hmem
  exact ⟨word, hword, hspelled.trans htext⟩

theorem concat {part : Part} (h : Everywhere (fun _ => Spelled text) names selector)
    (habsolute : ∀ name argument, part = .absolute name argument →
      ∃ word, Text.lower word = name ∧ ':' :: word ++ '(' :: argument ++ [')'] <:+: text)
    (hpart : part.Everywhere (fun _ => Spelled text) names) :
    Everywhere (fun _ => Spelled text) names (selector ++ [part]) := by
  refine Everywhere.concat h (fun name argument hmem => ?_) hpart
  rcases List.mem_append.1 hmem with hmem | hmem
  · exact h.1 name argument hmem
  · exact habsolute name argument (List.mem_singleton.1 hmem).symm

theorem regular (h : Everywhere (fun _ => Spelled text) names selector) (plain : Text) :
    Everywhere (fun _ => Spelled text) names (selector ++ [.regular plain]) :=
  concat h (by simp) (by simp [Part.Everywhere])

theorem absolute (h : Everywhere (fun _ => Spelled text) names selector) {word argument : Text}
    (hword : ':' :: word ++ '(' :: argument ++ [')'] <:+: text) :
    Everywhere (fun _ => Spelled text) names (selector ++ [.absolute (Text.lower word) argument]) := by
  refine concat h (fun name argument' heq => ?_) (by simp [Part.Everywhere])
  cases heq
  exact ⟨word, rfl, hword⟩

theorem relative (h : Everywhere (fun _ => Spelled text) names selector) {name : Text} {list : SelectorList}
    (hlist : list.Everywhere (fun _ => Spelled text) (name :: names)) :
    Everywhere (fun _ => Spelled text) names (selector ++ [.relative name list]) := by
  refine concat h (by simp) fun name' list' heq => ?_
  cases heq
  exact hlist

theorem anchored {root : Bool} {finished : SelectorList} {anchored : Selector} {own : List Edit}
    (h : Everywhere (fun _ => Spelled text) names selector)
    (hanchor : AnchorScript root finished selector anchored own) :
    Everywhere (fun _ => Spelled text) names anchored := by
  cases hanchor with
  | none hne => exact h
  | plain hplain => exact regular h _

end Spelled

/-- The selectors `finished` and the parts of one more selector are spelled out in the text, with all that is
nested in them. -/
structure SpelledOut (text : Text) (names : List Text) (finished : SelectorList) (parts : Selector) : Prop where
  selectors : ∀ selector ∈ finished, Everywhere (fun _ => Spelled text) names selector
  parts : Everywhere (fun _ => Spelled text) names parts

namespace SpelledOut

variable {text : Text} {names : List Text} {finished : SelectorList} {parts : Selector}

theorem mono {text' : Text} (h : SpelledOut text names finished parts) (htext : text <:+: text') :
    SpelledOut text' names finished parts :=
  ⟨fun selector hmem => Spelled.mono (h.selectors selector hmem) htext, Spelled.mono h.parts htext⟩

theorem concat (h : SpelledOut text names finished parts) :
    ∀ selector ∈ finished ++ [parts], Everywhere (fun _ => Spelled text) names selector := by
  intro selector hmem
  rcases List.mem_append.1 hmem with hmem | hmem
  · exact h.selectors selector hmem
  · rw [List.mem_singleton.1 hmem]
    exact h.parts

theorem everywhere (h : SpelledOut text names finished parts) :
    SelectorList.Everywhere (fun _ => Spelled text) names (finished ++ [parts]) :=
  SelectorList.everywhere_iff.2 ⟨by simp, h.concat⟩

end SpelledOut

/-- What a script derives is spelled out in the text that it reads. -/
theorem Script.spelled {root : Bool} {finished : SelectorList} {parts : Selector} {script : List Edit}
    (h : Script root finished parts script) (names : List Text) :
    SpelledOut (source script) names finished parts := by
  -- each edit adds to the text, so what is spelled out stays so
  induction h generalizing names with
  | start => exact ⟨by simp, Spelled.nil⟩
  | @space root finished parts script c h hspace ih =>
    have hmore : source script <:+: source (script ++ [.drop c]) := ⟨[], [c], by simp [sourceText]⟩
    exact (ih names).mono hmore
  | @plain root finished parts script own text h hplain ih =>
    have hmore : source script <:+: source (script ++ own) := ⟨[], source own, by simp⟩
    obtain ⟨hfinished, hparts⟩ := (ih names).mono hmore
    exact ⟨hfinished, Spelled.regular hparts text⟩
  | @absolute root finished parts anchored script own word argument h hanchor ih =>
    have hmore : source script <:+: source (script ++ own ++ opening word ++ keeps argument ++ [.keep ')']) :=
      ⟨[], source own ++ ':' :: word ++ '(' :: argument ++ [')'], by simp [sourceText]⟩
    obtain ⟨hfinished, hparts⟩ := (ih names).mono hmore
    refine ⟨hfinished, Spelled.absolute (Spelled.anchored hparts hanchor) ?_⟩
    exact ⟨source script ++ source own, [], by simp [sourceText]⟩
  | @relative root finished inner parts anchored last script own argument word h hanchor hinner ih ihinner =>
    have hmore : source script <:+: source (script ++ own ++ opening word ++ argument ++ [.keep ')']) :=
      ⟨[], source own ++ ':' :: word ++ '(' :: source argument ++ [')'], by simp [sourceText]⟩
    have hnested : source argument <:+: source (script ++ own ++ opening word ++ argument ++ [.keep ')']) :=
      ⟨source script ++ source own ++ ':' :: word ++ ['('], [')'], by simp [sourceText]⟩
    obtain ⟨hfinished, hparts⟩ := (ih names).mono hmore
    have hlist := ((ihinner (Text.lower word :: names)).mono hnested).everywhere
    exact ⟨hfinished, Spelled.relative (Spelled.anchored hparts hanchor) hlist⟩
  | @comma root finished parts script h ih =>
    have hmore : source script <:+: source (script ++ [.keep ',']) := ⟨[], [','], by simp [sourceText]⟩
    exact ⟨((ih names).mono hmore).concat, Spelled.nil⟩

end Selector

namespace SelectorList

open Selector Selector.Edit

/-- The absolute pseudo-classes of a list are spelled out in its text, those that are nested included. -/
theorem spelled_of_compile {config : Config} {text : Text} {list : SelectorList}
    (h : compile config text = .ok list) : list.Everywhere (fun _ => Spelled text) [] := by
  obtain ⟨finished, last, script, rfl, hscript, hsource⟩ := exists_script_of_compile h
  have htext : source script <:+: text := by
    rw [hsource]
    exact Text.trim_infix
  exact ((hscript.spelled []).mono htext).everywhere

/-- Texts of one tree have the same number of each character that is blank and no white space of selectors. -/
theorem count_eq_of_compile {config : Config} {a b : Text} {list : SelectorList} {c : Char}
    (hblank : Text.isBlank c = true) (hspace : Text.isSpace c = false) (ha : compile config a = .ok list)
    (hb : compile config b = .ok list) : a.count c = b.count c := by
  have hcount : ∀ text, compile config text = .ok list → text.count c = list.text.count c := by
    intro text h
    obtain ⟨finished, last, script, rfl, hscript, hsource⟩ := exists_script_of_compile h
    have hwritten : written script = SelectorList.text (finished ++ [last]) := by rw [hscript.written, text_concat]; rfl
    rw [← Text.count_trim hspace text, ← Text.trimSpace, ← hsource, hscript.count_source hblank hspace, hwritten]
  rw [hcount a ha, hcount b hb]

end SelectorList

end CosmeticFilter
