import CosmeticFilter.Stylesheet.Rule
import Mathlib.Data.List.Induction
import Mathlib.Data.List.Nodup

/-!
# What declarations come to

The declarations of a rule are settled in three ways at once. The first one that asks for debugging counts
(`debugValue?_eq_some_iff`), any removal replaces all others (`style?_eq_removal_iff`), and else every property stands
where it is declared first (`map_property_settle`) with the value that it is given last (`isLast_of_mem_settle`).
`RawRule.prepare_settles` puts these together for the declarations that a rule holds, which stay as they are.
-/

namespace CosmeticFilter

namespace Declaration

variable {d e : Declaration} {ds settled : List Declaration}

/-- `d` is the first declaration of its property. -/
def IsFirst (d : Declaration) (ds : List Declaration) : Prop :=
  ∃ before after, ds = before ++ d :: after ∧ ∀ e ∈ before, e.property ≠ d.property

/-- `d` is the last declaration of its property. -/
def IsLast (d : Declaration) (ds : List Declaration) : Prop :=
  ∃ before after, ds = before ++ d :: after ∧ ∀ e ∈ after, e.property ≠ d.property

/-! ### Properties with their last values -/

theorem map_property_put (d : Declaration) (settled : List Declaration) : (put d settled).map property =
    if d.property ∈ settled.map property then settled.map property else settled.map property ++ [d.property] := by
  induction settled with
  | nil => rfl
  | cons e rest ih =>
    rw [put, List.map_cons]
    by_cases heq : e.property = d.property
    · simp [heq]
    · simp only [if_neg heq, List.map_cons, ih, List.mem_cons, Ne.symm heq, false_or]
      split <;> rfl

/-- A declaration that is not of the property that is set stays. -/
theorem mem_of_mem_put (h : e ∈ put d settled) (hnodup : (settled.map property).Nodup) :
    e = d ∨ e ∈ settled ∧ e.property ≠ d.property := by
  induction settled with
  | nil => exact .inl (List.mem_singleton.1 h)
  | cons f rest ih =>
    rw [List.map_cons, List.nodup_cons] at hnodup
    rw [put] at h
    split at h
    · next heq =>
      rcases List.mem_cons.1 h with rfl | hmem
      · exact .inl rfl
      · refine .inr ⟨List.mem_cons_of_mem _ hmem, fun hproperty => hnodup.1 ?_⟩
        rw [heq, ← hproperty]
        exact List.mem_map_of_mem hmem
    · next hne =>
      rcases List.mem_cons.1 h with rfl | hmem
      · exact .inr ⟨List.mem_cons_self, hne⟩
      · exact (ih hmem hnodup.2).imp_right fun ⟨hmem, hproperty⟩ => ⟨List.mem_cons_of_mem _ hmem, hproperty⟩

theorem settle_concat (ds : List Declaration) (d : Declaration) : settle (ds ++ [d]) = put d (settle ds) := by
  rw [settle, List.foldl_append]
  rfl

theorem nodup_settle (ds : List Declaration) : ((settle ds).map property).Nodup := by
  induction ds using List.reverseRecOn with
  | nil => exact List.nodup_nil
  | append_singleton ds d ih =>
    rw [settle_concat, map_property_put]
    split
    · exact ih
    · next h =>
      rw [← List.concat_eq_append]
      exact ih.concat h

/-- The properties stand in the order of their first declarations. -/
theorem map_property_settle (ds : List Declaration) : (settle ds).map property = (ds.map property).eraseDups := by
  induction ds using List.reverseRecOn with
  | nil => rfl
  | append_singleton ds d ih =>
    rw [settle_concat, map_property_put, ih, List.map_append, List.map_singleton, List.eraseDups_append]
    generalize ds.map property = keys
    by_cases h : d.property ∈ keys
    · simp [h, List.removeAll]
    · simp [h, List.removeAll, List.eraseDups_cons]

/-- Every property has the value of its last declaration. -/
theorem isLast_of_mem_settle (h : d ∈ settle ds) : IsLast d ds := by
  induction ds using List.reverseRecOn with
  | nil => cases h
  | append_singleton ds e ih =>
    rw [settle_concat] at h
    rcases mem_of_mem_put h (nodup_settle ds) with rfl | ⟨hmem, hne⟩
    · exact ⟨ds, [], rfl, nofun⟩
    · obtain ⟨before, after, rfl, hlast⟩ := ih hmem
      refine ⟨before, after ++ [e], by simp, fun f hf => ?_⟩
      rcases List.mem_append.1 hf with hf | hf
      · exact hlast f hf
      · rw [List.mem_singleton.1 hf]
        exact hne.symm

example : settle [⟨['a'], ['1']⟩, ⟨['b'], ['2']⟩, ⟨['a'], ['3']⟩] = [⟨['a'], ['3']⟩, ⟨['b'], ['2']⟩] := by decide

/-- A declaration that is the last one of its property among some properties is the last one among all. -/
theorem isLast_of_filter {keeps : Text → Bool} (h : IsLast d (ds.filter (keeps ∘ property))) : IsLast d ds := by
  obtain ⟨before, after, heq, hlast⟩ := h
  obtain ⟨front, back, rfl, -, hback⟩ := List.filter_eq_append_iff.1 heq
  obtain ⟨between, rest, rfl, -, hd, hrest⟩ := List.filter_eq_cons_iff.1 hback
  refine ⟨front ++ between, rest, by simp, fun e he hproperty => ?_⟩
  have hkept : e ∈ rest.filter (keeps ∘ property) := by
    refine List.mem_filter.2 ⟨he, ?_⟩
    rw [Function.comp_apply, hproperty]
    exact hd
  rw [hrest] at hkept
  exact hlast e hkept hproperty

/-! ### Debugging -/

theorem isDebug_iff : d.isDebug = true ↔ d.property = debugKey := decide_eq_true_iff

theorem not_isDebug_eq : (fun d : Declaration => !d.isDebug) = (fun key => decide (key ≠ debugKey)) ∘ property := by
  funext d
  simp [isDebug]

theorem debugValue?_eq_some_iff {value : Text} :
    debugValue? ds = some value ↔ ∃ d, IsFirst d ds ∧ d.property = debugKey ∧ d.value = value := by
  rw [debugValue?, Option.map_eq_some_iff]
  refine exists_congr fun d => ?_
  rw [List.find?_eq_some_iff_append, isDebug_iff]
  constructor
  · rintro ⟨⟨hd, before, after, heq, hbefore⟩, rfl⟩
    refine ⟨⟨before, after, heq, fun e he => ?_⟩, hd, rfl⟩
    rw [hd]
    simpa [isDebug] using hbefore e he
  · rintro ⟨⟨before, after, heq, hbefore⟩, hd, rfl⟩
    refine ⟨⟨hd, before, after, heq, fun e he => ?_⟩, rfl⟩
    rw [hd] at hbefore
    simpa [isDebug] using hbefore e he

theorem debugValue?_filter (ds : List Declaration) : debugValue? (ds.filter isDebug) = debugValue? ds := by
  simp [debugValue?]

theorem filter_of_debugValue? (h : debugValue? ds = none) : (ds.filter fun d => !d.isDebug) = ds := by
  rw [debugValue?, Option.map_eq_none_iff, List.find?_eq_none] at h
  rw [List.filter_eq_self]
  simpa using h

/-! ### Removals -/

theorem style?_of_removal (h : removal ∈ ds) : style? ds = some [removal] := by
  rw [style?, if_pos (List.contains_iff_mem.2 h)]

theorem style?_of_not_removal (h : removal ∉ ds) : style? ds = if ds.isEmpty then none else some (settle ds) := by
  rw [style?, if_neg (mt List.contains_iff_mem.1 h)]

theorem style?_eq_none_iff : style? ds = none ↔ ds = [] := by
  by_cases h : removal ∈ ds
  · simp [style?_of_removal h, List.ne_nil_of_mem h]
  · rw [style?_of_not_removal h, ite_eq_left_iff]
    simp

/-- Declarations come to a removal only if one of them is a removal. -/
theorem style?_eq_removal_iff : style? ds = some [removal] ↔ removal ∈ ds := by
  refine ⟨fun hstyle => ?_, style?_of_removal⟩
  by_contra h
  rw [style?_of_not_removal h] at hstyle
  split at hstyle
  · cases hstyle
  · have hmem : removal ∈ settle ds := by simp [Option.some.inj hstyle]
    obtain ⟨before, after, rfl, -⟩ := isLast_of_mem_settle hmem
    simp at h

end Declaration

namespace RawRule

open Declaration

theorem run_prepare (selector : Text) (ast : SelectorList) (ds : List Declaration) :
    (prepare selector ast).run ds = (resolve ⟨selector, ast, ds⟩, ds) := by
  have hrun : (prepare selector ast).run ds = (⟨selector, ast,
      style? (if (debugValue? ds).isSome then ds.filter fun d => !d.isDebug else ds),
      (debugValue? ds).filter debugValues.contains⟩, ds) := rfl
  have hstyles : (if (debugValue? ds).isSome then ds.filter fun d => !d.isDebug else ds) =
      ds.filter fun d => !d.isDebug := by
    split
    · rfl
    · next h => exact (filter_of_debugValue? (by simpa using h)).symm
  rw [hrun, hstyles]
  rfl

/-- The declarations `ds` of a rule stay as they are, and the rule that they come to has three parts. It asks for
debugging as the first declaration of that property says, if it names a known way. It is a removal, and nothing else,
exactly if some declaration is one. Otherwise its style has the other properties in the order of their first
declarations with the values of their last ones, and it has no style if there are none. So the style does not depend on
the declarations for debugging, and these depend on no others. -/
theorem prepare_settles (selector : Text) (ast : SelectorList) (ds : List Declaration) :
    ∃ rule, (prepare selector ast).run ds = (rule, ds) ∧
      (∀ value, rule.debug = some value ↔ value ∈ ["true".toList, "global".toList] ∧
        ∃ d, IsFirst d ds ∧ d.property = "debug".toList ∧ d.value = value) ∧
      (rule.isRemove = true ↔ ⟨"remove".toList, "true".toList⟩ ∈ ds) ∧
      (⟨"remove".toList, "true".toList⟩ ∈ ds → rule.style = some [⟨"remove".toList, "true".toList⟩]) ∧
      (rule.style = none ↔ ∀ d ∈ ds, d.property = "debug".toList) ∧
      (⟨"remove".toList, "true".toList⟩ ∉ ds → ∀ style, rule.style = some style →
        style.map property = ((ds.map property).filter (· ≠ "debug".toList)).eraseDups ∧ ∀ d ∈ style, IsLast d ds) ∧
      ∀ others, ((ds.filter fun d => !d.isDebug) = (others.filter fun d => !d.isDebug) →
          ((prepare selector ast).run others).1.style = rule.style) ∧
        (ds.filter isDebug = others.filter isDebug → ((prepare selector ast).run others).1.debug = rule.debug) := by
  have hremoval : removal ∈ (ds.filter fun d => !d.isDebug) ↔ removal ∈ ds := by
    rw [List.mem_filter, and_iff_left (by decide)]
  refine ⟨resolve ⟨selector, ast, ds⟩, run_prepare selector ast ds, fun value => ?_, ?_, fun h => ?_, ?_,
    fun h style hstyle => ?_, fun others => ⟨fun h => ?_, fun h => ?_⟩⟩
  · rw [resolve, Option.filter_eq_some_iff, debugValue?_eq_some_iff, and_comm]
    exact and_congr_left' List.contains_iff_mem
  · rw [Rule.isRemove, decide_eq_true_iff]
    exact style?_eq_removal_iff.trans hremoval
  · exact style?_of_removal (hremoval.2 h)
  · rw [resolve, style?_eq_none_iff, List.filter_eq_nil_iff]
    exact forall₂_congr fun d _ => by rw [Bool.not_eq_true', Bool.not_eq_false, isDebug_iff]
  · rw [resolve, style?_of_not_removal (mt hremoval.1 h)] at hstyle
    split at hstyle
    · cases hstyle
    · obtain rfl := Option.some.inj hstyle
      rw [not_isDebug_eq]
      exact ⟨by rw [map_property_settle, ← List.filter_map], fun d hd => isLast_of_filter (isLast_of_mem_settle hd)⟩
  · rw [run_prepare, resolve, resolve, h]
  · rw [run_prepare, resolve, resolve, ← debugValue?_filter others, ← h, debugValue?_filter]

end RawRule

end CosmeticFilter
