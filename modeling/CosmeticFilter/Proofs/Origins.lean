import CosmeticFilter.Proofs.Grammar
import CosmeticFilter.Proofs.Policy
import CosmeticFilter.Proofs.Spelling
import CosmeticFilter.Stylesheet.Parser

/-!
# Selectors of rules and their trees

Every rule of a stylesheet goes back to a head that stands in it (`exists_accepts_of_parse`). Its tree is
compiled from the head without the marker of removal, and its selector is the same text without the blank
characters before the marker. So the tree is that of the selector and of a `gap` of blank characters, and
this makes a difference exactly if the gap holds more than the white space of selectors
(`tree_of_selector`).

The marker is looked for as it is spelled in lower case, but the compiler reads names in any case.
`variant_of_removal` says that this is the only way in which a marker stays in the tree of a rule.
-/

namespace CosmeticFilter

open Text (Blank)

namespace Splitter

variable {config : Config} {head : Text} {rule : RawRule}

/-- What an accepted head is compiled from: the selector of the rule, and the blank characters before the
marker if there is one. -/
theorem Accepts.exists_gap (h : Accepts config head rule) : ∃ gap, Blank gap ∧
    SelectorList.parse config (rule.selector ++ gap) = .ok rule.ast ∧
    ¬ Removal.marker <:+: rule.selector ++ gap ∧ (gap = [] ∨ rule.selector ++ gap ++ Removal.marker <:+: head) := by
  obtain ⟨-, selector, hsplit, hparse, hkey⟩ := h
  rcases Removal.split_eq_ok_iff.1 hsplit with ⟨rfl, -, hstart⟩ | ⟨hmarked, -⟩
  · have hkey : rule.selector = Text.trimBlank head := by rw [hkey]; exact Text.trim_trim
    refine ⟨[], by simp [Blank], by rwa [hkey, List.append_nil], ?_, .inl rfl⟩
    rw [hkey, List.append_nil]
    exact fun hmarker => hstart (Removal.marker_starts.isInfix.trans hmarker)
  · -- the head is trimmed, so only the end of the selector can be blank
    obtain ⟨front, gap, hselector, hfront, hgap⟩ := Text.exists_eq_trim Text.isBlank selector
    have hnil : front = [] := by
      cases front with
      | nil => rfl
      | cons c front =>
        have hhead : (Text.trimBlank head).head? = some c := by
          rw [hmarked.ends, hselector]
          rfl
        have hblank := hfront c List.mem_cons_self
        rw [Text.head?_trim hhead] at hblank
        cases hblank
    rw [hnil, List.nil_append, ← Text.trimBlank, ← hkey] at hselector
    refine ⟨gap, hgap, by rwa [← hselector], ?_, .inr ?_⟩
    · rw [← hselector]
      exact hmarked.not_infix
    · rw [← hselector, ← hmarked.ends]
      exact Text.trim_infix

theorem Accepts.selector_infix (h : Accepts config head rule) : rule.selector <:+: head := by
  obtain ⟨-, selector, hsplit, -, hkey⟩ := h
  have hselector : selector <:+: Text.trimBlank head := by
    rcases Removal.split_eq_ok_iff.1 hsplit with ⟨rfl, -, -⟩ | ⟨hmarked, -⟩
    · exact List.infix_rfl
    · rw [hmarked.ends]
      exact (List.prefix_append _ _).isInfix
  rw [hkey]
  exact (Text.trim_infix.trans hselector).trans Text.trim_infix

/-- The rules of a stylesheet go back to heads that stand in it. -/
theorem Sheet.exists_accepts {text : Text} {raws : List RawRule} (h : Sheet config text raws) {raw : RawRule}
    (hmem : raw ∈ raws) : ∃ head rule, head <:+: text ∧ Accepts config head rule ∧ rule.selector = raw.selector ∧
      rule.ast = raw.ast := by
  induction h with
  | nil => cases hmem
  | @tail tail selector rule swallows marked compiled key styles =>
    obtain rfl := List.mem_singleton.1 hmem
    exact ⟨tail, raw, List.infix_rfl, (accepts_marked_iff.2 ⟨selector, marked, compiled, key, styles⟩).1, rfl, rfl⟩
  | @block head body gap rest rule ds raws swallows opens accepts free closes declares styled blank later ih =>
    rcases List.mem_cons.1 hmem with rfl | hmem
    · exact ⟨head, rule, (List.prefix_append _ _).isInfix, accepts, rfl, rfl⟩
    · obtain ⟨head', rule', hwithin, hrule⟩ := ih hmem
      exact ⟨head', rule', hwithin.trans ⟨head ++ '\x7b' :: body ++ '\x7d' :: gap, [], by simp⟩, hrule⟩

end Splitter

namespace Stylesheet

variable {config : Config} {text : Text} {rules : List Rule} {r : Rule}

theorem parse_eq_ok_iff : parse config text = .ok rules ↔
    ∃ raws, Splitter.Sheet config (normalize text) raws ∧ rules = (RawRule.merge raws).map RawRule.resolve := by
  rw [parse, map_eq_ok_iff]
  constructor
  · rintro ⟨table, htable, rfl⟩
    obtain ⟨raws, hraws, rfl⟩ := Splitter.exists_sheet_of_rules htable
    exact ⟨raws, hraws, rfl⟩
  · rintro ⟨raws, hraws, rfl⟩
    exact ⟨_, Splitter.rules_of_sheet hraws, rfl⟩

theorem exists_accepts_of_parse (h : parse config text = .ok rules) (hr : r ∈ rules) : ∃ head rule,
    head <:+: normalize text ∧ Splitter.Accepts config head rule ∧ rule.selector = r.selector ∧ rule.ast = r.ast := by
  obtain ⟨raws, hraws, rfl⟩ := parse_eq_ok_iff.1 h
  obtain ⟨merged, hmerged, rfl⟩ := List.mem_map.1 hr
  obtain ⟨raw, hraw, hselector, hast⟩ := RawRule.exists_of_mem_merge hmerged
  obtain ⟨head, rule, hwithin, haccepts, hselector', hast'⟩ := hraws.exists_accepts hraw
  exact ⟨head, rule, hwithin, haccepts, hselector'.trans hselector, hast'.trans hast⟩

theorem nodup_of_parse (h : parse config text = .ok rules) : (rules.map Rule.selector).Nodup := by
  obtain ⟨raws, -, rfl⟩ := parse_eq_ok_iff.1 h
  rw [List.map_map]
  exact RawRule.nodup_merge raws

end Stylesheet

namespace SelectorList

/-- White space after a selector makes no difference, and other blank characters always do. -/
theorem parse_append_iff {config : Config} {selector gap : Text} {list : SelectorList} (hgap : Blank gap)
    (h : parse config (selector ++ gap) = .ok list) :
    parse config selector = .ok list ↔ ∀ c ∈ gap, Text.isSpace c = true := by
  constructor
  · intro hselector c hc
    by_contra hspace
    have hspace : Text.isSpace c = false := by simpa using hspace
    have hcount := count_eq_of_compile (hgap c hc) hspace (compile_of_parse hselector) (compile_of_parse h)
    have hpos := List.count_pos_iff.2 hc
    rw [List.count_append] at hcount
    omega
  · intro hspace
    have htrim : Text.trimSpace (selector ++ gap) = Text.trimSpace selector := Text.trim_append_of_all hspace
    rw [parse_eq_compile, compile] at h ⊢
    rwa [htrim] at h

end SelectorList

namespace Stylesheet

variable {config : Config} {text : Text} {rules : List Rule} {r : Rule}

/-! ### The tree of a rule -/

/-- No two rules have the same selector. The tree of a rule is that of its selector with the blank characters
that stood before the marker of removal, and so that of its selector exactly if these are white space of
selectors. -/
theorem tree_of_selector (h : parse config text = .ok rules) : (rules.map Rule.selector).Nodup ∧
    ∀ r ∈ rules, ∃ gap, Blank gap ∧ SelectorList.parse config (r.selector ++ gap) = .ok r.ast ∧
      (gap = [] ∨ r.selector ++ gap ++ Removal.marker <:+: normalize text) ∧
      (SelectorList.parse config r.selector = .ok r.ast ↔ ∀ c ∈ gap, Text.isSpace c = true) := by
  refine ⟨nodup_of_parse h, fun r hr => ?_⟩
  obtain ⟨head, rule, hwithin, haccepts, hselector, hast⟩ := exists_accepts_of_parse h hr
  obtain ⟨gap, hgap, hparse, -, hmarker⟩ := haccepts.exists_gap
  rw [hselector, hast] at hparse
  rw [hselector] at hmarker
  exact ⟨gap, hgap, hparse, hmarker.imp_right fun hhead => hhead.trans hwithin,
    SelectorList.parse_append_iff hgap hparse⟩

theorem sheet_blank_before_marker : Splitter.Sheet .standard "div\u00a0:remove()".toList
    [⟨"div".toList, [[.regular "div\u00a0".toList]], [Declaration.removal]⟩] := by
  have hmarked : Removal.Marked (Text.trimBlank "div\u00a0:remove()".toList) "div\u00a0".toList := by
    have hsplit : Removal.split (Text.trimBlank "div\u00a0:remove()".toList) =
        .ok ("div\u00a0".toList, [Declaration.removal]) := rfl
    exact ((Removal.split_eq_ok_iff.1 hsplit).resolve_left fun h => absurd h.2.1 (by decide)).1
  have hcompiled : SelectorList.parse .standard "div\u00a0".toList = .ok [[.regular "div\u00a0".toList]] :=
    (SelectorList.parse_eq_compile _ _).trans (eq_ok_of_toOption (by cbv))
  exact .tail (Splitter.swallows_of_not_mem (by decide)) hmarked hcompiled (by decide) rfl

theorem tree_of_selector_gaps :
    ∃ rules, parse .standard "a :remove() \x7b\x7d div\u00a0:remove()".toList = .ok rules ∧
      rules.map Rule.selector = ["a".toList, "div".toList] ∧ (rules.map Rule.selector).Nodup ∧
      ∀ r ∈ rules, ∃ gap, Blank gap ∧ SelectorList.parse .standard (r.selector ++ gap) = .ok r.ast ∧
        (gap = [] ∨ r.selector ++ gap ++ Removal.marker <:+:
          normalize "a :remove() \x7b\x7d div\u00a0:remove()".toList) ∧
        (SelectorList.parse .standard r.selector = .ok r.ast ↔ ∀ c ∈ gap, Text.isSpace c = true) := by
  have hnormal : normalize "a :remove() \x7b\x7d div\u00a0:remove()".toList =
      "a :remove() ".toList ++ '\x7b' :: ([] ++ '\x7d' :: ([' '] ++ "div\u00a0:remove()".toList)) := by decide_cbv
  have hcompiled : SelectorList.parse .standard "a ".toList = .ok [[.regular "a".toList]] :=
    (SelectorList.parse_eq_compile _ _).trans (eq_ok_of_toOption (by cbv))
  have haccepts : Splitter.Accepts .standard "a :remove() ".toList
      ⟨"a".toList, [[.regular "a".toList]], [Declaration.removal]⟩ :=
    ⟨by decide, "a ".toList, rfl, hcompiled, by decide⟩
  have hbody : Block.Body [] [] := .last Text.freeAfter_nil (.blank (by decide))
  have hfree : Text.Free (· = '\x7d') [] := Text.freeAfter_nil
  have hgap : Blank [' '] := by decide
  have hsheet := Splitter.Sheet.block (Splitter.swallows_of_not_mem (by decide)) (by decide) haccepts hfree
    (by decide) hbody (fun _ => by decide) hgap sheet_blank_before_marker
  have h : parse .standard "a :remove() \x7b\x7d div\u00a0:remove()".toList =
      .ok [⟨"a".toList, [[.regular "a".toList]], some [.removal], none⟩,
        ⟨"div".toList, [[.regular "div\u00a0".toList]], some [.removal], none⟩] :=
    parse_eq_ok_iff.2 ⟨_, by rwa [hnormal], by decide⟩
  exact ⟨_, h, rfl, tree_of_selector h⟩

theorem tree_not_of_selector :
    ∃ rules, ∃ r ∈ rules, parse .standard "div\u00a0:remove()".toList = .ok rules ∧
      SelectorList.parse .standard r.selector ≠ .ok r.ast := by
  have hnormal : normalize "div\u00a0:remove()".toList = "div\u00a0:remove()".toList := by decide_cbv
  have h : parse .standard "div\u00a0:remove()".toList =
      .ok [⟨"div".toList, [[.regular "div\u00a0".toList]], some [.removal], none⟩] :=
    parse_eq_ok_iff.2 ⟨_, by rw [hnormal]; exact sheet_blank_before_marker, by decide⟩
  have hselector : SelectorList.parse .standard "div".toList = .ok [[.regular "div".toList]] :=
    (SelectorList.parse_eq_compile _ _).trans (eq_ok_of_toOption (by cbv))
  refine ⟨_, _, List.mem_singleton_self _, h, fun heq => ?_⟩
  have hast := Except.ok.inj (hselector.symm.trans heq)
  exact absurd hast (by decide)

/-! ### The marker of removal -/

/-- The text has a marker of removal that is not spelled in lower case. -/
def HasVariant (t : Text) : Prop := ∃ word, word ≠ PseudoClass.removeName ∧
  Text.lower word = PseudoClass.removeName ∧ ':' :: word ++ "()".toList <:+: t

/-- The marker of removal does not stay in the selector of a rule, and stays in its tree only where another
spelling of it stays in the selector. -/
theorem variant_of_removal (h : parse config text = .ok rules) (hr : r ∈ rules) :
    ¬ Removal.marker <:+: r.selector ∧
      ∀ names inner, SelectorList.Includes [] r.ast names inner → ∀ selector ∈ inner, ∀ argument,
        .absolute PseudoClass.removeName argument ∈ selector → HasVariant r.selector := by
  obtain ⟨head, rule, -, haccepts, hselector, hast⟩ := exists_accepts_of_parse h hr
  obtain ⟨gap, hgap, hparse, hmarker, -⟩ := haccepts.exists_gap
  rw [hselector] at hparse hmarker
  rw [hast] at hparse
  have hcompile := SelectorList.compile_of_parse hparse
  refine ⟨fun hwithin => hmarker (hwithin.trans (List.prefix_append _ _).isInfix), ?_⟩
  intro names inner hinner selector hmem argument habsolute
  -- the marker is spelled out in the text, and it has no argument
  obtain ⟨word, hword, hspelled⟩ :=
    (SelectorList.spelled_of_compile hcompile names inner hinner).2 selector hmem _ _ habsolute
  have hargument : argument = [] :=
    (((SelectorList.lawful_of_compile hcompile names inner hinner).2 selector hmem).argument _ _ habsolute).1 rfl
  rw [hargument] at hspelled
  refine ⟨word, ?_, hword, ?_⟩
  · rintro rfl
    exact hmarker hspelled
  · have hclose : ')' ∉ gap := fun hmem => absurd (hgap _ hmem) (by decide)
    have hmarker' := Text.infix_of_concat_infix_append (t := ':' :: word ++ ['(']) (by simpa using hspelled) hclose
    simpa using hmarker'

theorem variant_of_removal_upper :
    ∃ rules r, parse .standard "a:remove() \x7b\x7d b:REMOVE() \x7b color: red; \x7d".toList = .ok rules ∧
      r ∈ rules ∧ r.selector = "b:REMOVE()".toList ∧ ¬ Removal.marker <:+: r.selector ∧
      ∀ names inner, SelectorList.Includes [] r.ast names inner → ∀ selector ∈ inner, ∀ argument,
        .absolute PseudoClass.removeName argument ∈ selector → HasVariant r.selector := by
  have h : parse .standard "a:remove() \x7b\x7d b:REMOVE() \x7b color: red; \x7d".toList =
      .ok [⟨"a".toList, [[.regular "a".toList]], some [.removal], none⟩,
        ⟨"b:REMOVE()".toList, [[.regular "b".toList, .absolute PseudoClass.removeName []]],
          some [⟨"color".toList, "red".toList⟩], none⟩] :=
    eq_ok_of_toOption (by decide +kernel)
  exact ⟨_, ⟨"b:REMOVE()".toList, _, _, _⟩, h, List.mem_cons_of_mem _ (List.mem_singleton_self _), rfl,
    variant_of_removal h (List.mem_cons_of_mem _ (List.mem_singleton_self _))⟩

/-- A marker of removal that stays in a tree. -/
theorem removal_stays_in_tree :
    ∃ rules, ∃ r ∈ rules, parse .standard "div:REMOVE() \x7b color: red; \x7d".toList = .ok rules ∧
      ∃ names inner, SelectorList.Includes [] r.ast names inner ∧ ∃ selector ∈ inner, ∃ argument,
        .absolute PseudoClass.removeName argument ∈ selector := by
  have h : parse .standard "div:REMOVE() \x7b color: red; \x7d".toList =
      .ok [⟨"div:REMOVE()".toList, [[.regular "div".toList, .absolute PseudoClass.removeName []]],
          some [⟨"color".toList, "red".toList⟩], none⟩] :=
    eq_ok_of_toOption (by decide +kernel)
  exact ⟨_, _, List.mem_singleton_self _, h, [], _, .self, _, List.mem_singleton_self _, [], by simp⟩

end Stylesheet

end CosmeticFilter
