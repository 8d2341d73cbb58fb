import Mathlib
import CosmeticFilter.Proofs.Origins

/-!
# Selectors in normalized stylesheets

A stylesheet is normalized before it is split. Its comments are taken out first, wherever they stand: a text
is kept as it is exactly if it has no complete comment (`dropComments_eq_self`, `length_dropComments_le`).

`parse_block_iff` compares compiling a selector by itself with compiling it before a block. Where the selector
has no brace and no marker of removal, both agree exactly if it has no comment, in a value or an argument
either.
-/

namespace CosmeticFilter.Stylesheet

open Text (Blank)

/-! ### Comments -/

/-- The text has a comment that ends. -/
def HasComment (t : Text) : Prop :=
  ∃ before inside after, t = before ++ '/' :: '*' :: inside ++ '*' :: '/' :: after

variable {c : Char} {t u : Text}

theorem hasCommentEnd_iff : hasCommentEnd t = true ↔ ∃ inside after, t = inside ++ '*' :: '/' :: after := by
  fun_induction hasCommentEnd t with
  | case1 after => exact ⟨fun _ => ⟨[], after, rfl⟩, fun _ => rfl⟩
  | case2 c rest hnot ih =>
    rw [ih]
    constructor
    · rintro ⟨inside, after, rfl⟩
      exact ⟨c :: inside, after, rfl⟩
    · rintro ⟨inside, after, heq⟩
      cases inside with
      | nil =>
        cases heq
        exact absurd rfl (hnot after rfl)
      | cons d inside =>
        cases heq
        exact ⟨inside, after, rfl⟩
  | case3 => simp

/-- A comment starts here, or in what follows. -/
theorem hasComment_open : HasComment ('/' :: '*' :: t) ↔ hasCommentEnd t = true := by
  rw [hasCommentEnd_iff]
  constructor
  · rintro ⟨before, inside, after, heq⟩
    match before with
    | [] =>
      cases heq
      exact ⟨inside, after, rfl⟩
    | [d] => cases heq
    | d :: e :: before =>
      cases heq
      exact ⟨before ++ '/' :: '*' :: inside, after, by simp⟩
  · rintro ⟨inside, after, rfl⟩
    exact ⟨[], inside, after, rfl⟩

theorem hasComment_cons (hnot : ∀ more, c = '/' → t = '*' :: more → False) : HasComment (c :: t) ↔ HasComment t := by
  constructor
  · rintro ⟨before, inside, after, heq⟩
    cases before with
    | nil =>
      cases heq
      exact absurd rfl (hnot (inside ++ '*' :: '/' :: after) rfl)
    | cons d before =>
      cases heq
      exact ⟨before, inside, after, rfl⟩
  · rintro ⟨before, inside, after, rfl⟩
    exact ⟨c :: before, inside, after, rfl⟩

theorem not_hasComment_of_not_mem (h : '*' ∉ t) : ¬ HasComment t := by
  rintro ⟨before, inside, after, rfl⟩
  simp at h

theorem dropComments_eq_self (h : ¬ HasComment t) : dropComments t = t := by
  rw [dropComments]
  generalize hinside : false = inside
  fun_induction dropCommentsFrom inside t with
  | case1 => cases hinside
  | case2 => cases hinside
  | case3 rest hend => exact absurd (hasComment_open.2 hend) h
  | case4 => rfl
  | case5 c rest hnot ih =>
    rw [hasComment_cons hnot] at h
    rw [ih h rfl]
  | case6 => rfl

theorem dropCommentsFrom_sublist (inside : Bool) (t : Text) : (dropCommentsFrom inside t).Sublist t := by
  fun_induction dropCommentsFrom inside t with
  | case1 rest ih => exact (ih.cons _).cons _
  | case2 c rest hnot ih => exact ih.cons _
  | case3 rest hend ih => exact (ih.cons _).cons _
  | case4 => exact List.Sublist.refl _
  | case5 c rest hnot ih => exact ih.cons_cons _
  | case6 => exact List.Sublist.refl _

/-- A comment is at least as long as its delimiters. -/
theorem length_dropComments_le (h : HasComment t) : (dropComments t).length + 4 ≤ t.length := by
  -- inside a comment, only its end is still to come
  have hfrom : ∀ inside t,
      (inside = true → hasCommentEnd t = true → (dropCommentsFrom inside t).length + 2 ≤ t.length) ∧
      (inside = false → HasComment t → (dropCommentsFrom inside t).length + 4 ≤ t.length) := by
    intro inside t
    fun_induction dropCommentsFrom inside t with
    | case1 rest ih =>
      have hle := (dropCommentsFrom_sublist false rest).length_le
      exact ⟨fun _ _ => by simpa using hle, nofun⟩
    | case2 c rest hnot ih =>
      refine ⟨fun _ hend => ?_, nofun⟩
      rw [hasCommentEnd.eq_2 _ _ hnot] at hend
      have hle := ih.1 rfl hend
      rw [List.length_cons]
      omega
    | case3 rest hend ih =>
      refine ⟨nofun, fun _ _ => ?_⟩
      have hle := ih.1 rfl hend
      rw [List.length_cons, List.length_cons]
      omega
    | case4 rest hend => exact ⟨nofun, fun _ hcomment => absurd (hasComment_open.1 hcomment) hend⟩
    | case5 c rest hnot ih =>
      refine ⟨nofun, fun _ hcomment => ?_⟩
      rw [hasComment_cons hnot] at hcomment
      have hle := ih.2 rfl hcomment
      rw [List.length_cons, List.length_cons]
      omega
    | case6 inside => exact ⟨nofun, fun _ hcomment => absurd hcomment (not_hasComment_of_not_mem (by simp))⟩
  exact (hfrom false t).2 rfl h

theorem hasComment_iff : HasComment t ↔ dropComments t ≠ t := by
  constructor
  · intro h heq
    have hle := length_dropComments_le h
    rw [heq] at hle
    omega
  · intro h
    by_contra hcomment
    exact h (dropComments_eq_self hcomment)

instance : Decidable (HasComment t) := decidable_of_iff _ hasComment_iff.symm

/-- A delimiter does not reach over the end of a text that is continued without its characters. -/
theorem not_starts_append {x y : Char} (hnot : ∀ more, c = x → t = y :: more → False) (hu : y ∉ u) :
    ∀ more, c = x → t ++ u = y :: more → False := by
  intro more hc heq
  cases t with
  | nil => simp [show u = y :: more from heq] at hu
  | cons d t =>
    cases heq
    exact hnot t hc rfl

section

variable (hstar : '*' ∉ u) (hslash : '/' ∉ u)

include hstar hslash in
theorem hasCommentEnd_append : hasCommentEnd (t ++ u) = hasCommentEnd t := by
  fun_induction hasCommentEnd t with
  | case1 after => rfl
  | case2 c rest hnot ih => rw [List.cons_append, hasCommentEnd.eq_2 _ _ (not_starts_append hnot hslash), ih]
  | case3 =>
    rw [List.nil_append, Bool.eq_false_iff]
    intro hend
    obtain ⟨inside, after, rfl⟩ := hasCommentEnd_iff.1 hend
    simp at hstar

include hstar hslash in
/-- What follows the comments of a text is kept if it has no part of a delimiter. -/
theorem dropComments_append : dropComments (t ++ u) = dropComments t ++ u := by
  have hfrom : ∀ inside t, (inside = true → hasCommentEnd t = true) →
      dropCommentsFrom inside (t ++ u) = dropCommentsFrom inside t ++ u := by
    intro inside t
    fun_induction dropCommentsFrom inside t with
    | case1 rest ih =>
      intro _
      exact ih nofun
    | case2 c rest hnot ih =>
      intro hend
      rw [hasCommentEnd.eq_2 _ _ hnot] at hend
      rw [List.cons_append, dropCommentsFrom.eq_2 _ _ (not_starts_append hnot hslash), ih hend]
    | case3 rest hend ih =>
      intro _
      rw [List.cons_append, List.cons_append, dropCommentsFrom.eq_3, hasCommentEnd_append hstar hslash, if_pos hend,
        ih fun _ => hend]
    | case4 rest hend =>
      intro _
      rw [List.cons_append, List.cons_append, dropCommentsFrom.eq_3, hasCommentEnd_append hstar hslash, if_neg hend]
    | case5 c rest hnot ih =>
      intro _
      rw [List.cons_append, dropCommentsFrom.eq_4 _ _ (not_starts_append hnot hstar), ih nofun, List.cons_append]
    | case6 inside =>
      intro hend
      cases inside with
      | true => cases hend rfl
      | false => exact dropComments_eq_self (not_hasComment_of_not_mem hstar)
  exact hfrom false t nofun

end

/-! ### Line breaks -/

theorem joinLines_eq_self (h : ∀ c ∈ t, isBreak c = false) : joinLines t = t := by
  induction t with
  | nil => rfl
  | cons c t ih =>
    rw [joinLines, if_neg (by simp [h c]), ih fun d hd => h d (List.mem_cons_of_mem _ hd)]

/-- A text without breaks, followed by a text without parts of comments, is normalized by leaving its comments
out. -/
theorem normalize_append (ht : ∀ c ∈ t, isBreak c = false) (hu : ∀ c ∈ u, isBreak c = false) (hstar : '*' ∉ u)
    (hslash : '/' ∉ u) : normalize (t ++ u) = Text.trimBlank (dropComments t ++ u) := by
  rw [normalize, dropComments_append hstar hslash, joinLines_eq_self]
  intro c hc
  rcases List.mem_append.1 hc with hc | hc
  · exact ht c ((dropCommentsFrom_sublist false t).mem hc)
  · exact hu c hc

/-! ### Selectors before a block -/

/-- The text of a block, as it follows a selector. -/
abbrev sampleBlock : Text := " \x7b color: red; \x7d".toList

variable {config : Config} {selector : Text} {list : SelectorList}

/-- A selector with a block is a stylesheet of one rule. -/
theorem sheet_sampleBlock (hparse : SelectorList.parse config selector = .ok list)
    (htrimmed : Text.trimBlank selector = selector) (hne : selector ≠ []) (hbrace : '\x7b' ∉ selector)
    (hmarker : ¬ Removal.markerStart <:+: selector) :
    Splitter.Sheet config (selector ++ sampleBlock)
      [⟨selector, list, [⟨"color".toList, "red".toList⟩]⟩] := by
  have htrim : Text.trimBlank (selector ++ [' ']) = selector :=
    (Text.trim_append_of_all (List.forall_mem_singleton.2 rfl)).trans htrimmed
  have haccepts : Splitter.Accepts config (selector ++ [' ']) ⟨selector, list, []⟩ := by
    refine ⟨?_, selector, ?_, hparse, htrimmed.symm⟩
    · rw [← Text.trimBlank_eq_nil_iff, htrim]
      exact hne
    · rw [htrim]
      exact Removal.split_eq_ok_iff.2 (.inl ⟨rfl, rfl, hmarker⟩)
  have hswallows : Splitter.Swallows config (selector ++ [' ']) :=
    Splitter.swallows_of_not_mem (by simpa using hbrace)
  have hbody : Block.Body " color: red; ".toList [⟨"color".toList, "red".toList⟩] := by
    have hpair : Block.Declares (" color".toList ++ ':' :: " red".toList) [⟨"color".toList, "red".toList⟩] :=
      .pair (Text.freeAfter_of_not_mem (by simp)) (by decide) (by decide) (by decide)
    have hlast : Block.Body [' '] [] := .last (Text.freeAfter_of_not_mem (by simp)) (.blank (by decide))
    exact .more (Text.freeAfter_of_not_mem (by simp)) (by decide) hpair hlast
  have hfree : Text.Free (· = '\x7d') " color: red; ".toList := Text.freeAfter_of_not_mem (by simp)
  have hgap : Blank [] := by decide
  have hsheet := Splitter.Sheet.block hswallows (by simp) haccepts hfree (by decide) hbody nofun hgap .nil
  rwa [List.append_assoc] at hsheet

/-- A selector of a single line without braces and without the marker of removal, compiled with a block after
it, gives the tree that it has by itself, exactly if it has no comment. -/
theorem parse_block_iff (hparse : SelectorList.parse config selector = .ok list)
    (htrimmed : Text.trimBlank selector = selector) (hbreak : ∀ c ∈ selector, isBreak c = false)
    (hbrace : '\x7b' ∉ selector) (hmarker : ¬ Removal.markerStart <:+: selector) :
    (∃ rule, parse config (selector ++ " \x7b color: red; \x7d".toList) = .ok [rule] ∧ rule.selector = selector ∧
      rule.ast = list) ↔ ¬ HasComment selector := by
  have hne : selector ≠ [] := by
    rintro rfl
    exact (SelectorList.compile_eq_ok_iff.1 (SelectorList.compile_of_parse hparse)).1 rfl
  have hnormal : normalize (selector ++ sampleBlock) = Text.trimBlank (dropComments selector ++ sampleBlock) :=
    normalize_append hbreak (by simp [sampleBlock, isBreak]) (by decide) (by decide)
  constructor
  · rintro ⟨rule, hrule, hselector, -⟩ hcomment
    obtain ⟨head, raw, hhead, haccepts, hraw', -⟩ := exists_accepts_of_parse hrule (List.mem_singleton_self _)
    -- the selector would have to stand before the brace, in a text that is shorter
    have hwithin : selector <:+: (dropComments selector ++ [' ']) ++ '\x7b' :: " color: red; \x7d".toList := by
      have hraw := haccepts.selector_infix.trans hhead
      rw [hraw', hselector, hnormal] at hraw
      rw [List.append_assoc]
      exact hraw.trans Text.trim_infix
    rcases Text.infix_of_infix_append_cons hwithin hbrace with hbefore | hafter
    · have hle := hbefore.length_le
      have hshorter := length_dropComments_le hcomment
      rw [List.length_append, List.length_singleton] at hle
      omega
    · obtain ⟨before, inside, after, heq⟩ := hcomment
      have hslash : '/' ∈ " color: red; \x7d".toList := hafter.subset (by simp [heq])
      exact absurd hslash (by decide)
  · intro hcomment
    have hkept : Text.trimBlank (selector ++ sampleBlock) = selector ++ sampleBlock := by
      refine Text.trim_eq_self (fun c hc => ?_) fun c hc => ?_
      · rw [List.head?_append_of_ne_nil _ hne, ← htrimmed] at hc
        exact Text.head?_trim hc
      · rw [List.getLast?_append] at hc
        cases hc
        rfl
    have hsheet := sheet_sampleBlock hparse htrimmed hne hbrace hmarker
    rw [dropComments_eq_self hcomment, hkept] at hnormal
    rw [← hnormal] at hsheet
    exact ⟨_, parse_eq_ok_iff.2 ⟨_, hsheet, rfl⟩, rfl, rfl⟩

theorem parse_block_iff_open_comment :
    ∃ list, SelectorList.parse .standard "a[b=\"*/\"]:contains(x /*)".toList = .ok list ∧
      ∃ rule, parse .standard ("a[b=\"*/\"]:contains(x /*)".toList ++ " \x7b color: red; \x7d".toList) = .ok [rule] ∧
        rule.selector = "a[b=\"*/\"]:contains(x /*)".toList ∧ rule.ast = list := by
  have h : SelectorList.parse .standard "a[b=\"*/\"]:contains(x /*)".toList =
      .ok [[.regular "a[b=\"*/\"]".toList, .absolute "contains".toList "x /*".toList]] :=
    (SelectorList.parse_eq_compile _ _).trans (eq_ok_of_toOption (by decide +kernel))
  have hmarker : ¬ Removal.markerStart <:+: "a[b=\"*/\"]:contains(x /*)".toList :=
    Text.cutAt?_eq_none_iff.1 (by cbv)
  exact ⟨_, h, (parse_block_iff h (by decide) (by simp [isBreak]) (by decide) hmarker).2 (by decide_cbv)⟩

theorem value_lost_before_block :
    ∃ list, SelectorList.parse .standard "a[title=\"/* x */\"]".toList = .ok list ∧
      Text.trimBlank "a[title=\"/* x */\"]".toList = "a[title=\"/* x */\"]".toList ∧
      (∀ c ∈ "a[title=\"/* x */\"]".toList, isBreak c = false) ∧ '\x7b' ∉ "a[title=\"/* x */\"]".toList ∧
      ¬ Removal.markerStart <:+: "a[title=\"/* x */\"]".toList ∧
      ¬ ∃ rule, parse .standard ("a[title=\"/* x */\"]".toList ++ " \x7b color: red; \x7d".toList) = .ok [rule] ∧
        rule.selector = "a[title=\"/* x */\"]".toList ∧ rule.ast = list := by
  have h : SelectorList.parse .standard "a[title=\"/* x */\"]".toList =
      .ok [[.regular "a[title=\"/* x */\"]".toList]] :=
    (SelectorList.parse_eq_compile _ _).trans (eq_ok_of_toOption (by cbv))
  have hleft : SelectorList.parse .standard "a[title=\"\"]".toList = .ok [[.regular "a[title=\"\"]".toList]] :=
    (SelectorList.parse_eq_compile _ _).trans (eq_ok_of_toOption (by cbv))
  -- the normalizer leaves the value empty, and what is left is again a selector with a block
  have hnormal : normalize ("a[title=\"/* x */\"]".toList ++ " \x7b color: red; \x7d".toList) =
      "a[title=\"\"]".toList ++ sampleBlock := by decide_cbv
  have hsheet := sheet_sampleBlock hleft (by decide) (by decide) (by decide) (Text.cutAt?_eq_none_iff.1 (by cbv))
  have hblock : parse .standard ("a[title=\"/* x */\"]".toList ++ " \x7b color: red; \x7d".toList) =
      .ok [⟨"a[title=\"\"]".toList, [[.regular "a[title=\"\"]".toList]],
        some [⟨"color".toList, "red".toList⟩], none⟩] :=
    parse_eq_ok_iff.2 ⟨_, by rwa [hnormal], rfl⟩
  refine ⟨_, h, by decide, by simp [isBreak], by decide, Text.cutAt?_eq_none_iff.1 (by cbv), ?_⟩
  rintro ⟨rule, hrule, hselector, -⟩
  obtain rfl := (List.cons.inj (Except.ok.inj (hblock.symm.trans hrule))).1
  exact absurd hselector (by decide)

end CosmeticFilter.Stylesheet
