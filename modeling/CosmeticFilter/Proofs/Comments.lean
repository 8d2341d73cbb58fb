import CosmeticFilter.Proofs.Normalization

/-!
# Normalizing twice

Comments are taken out of a stylesheet in one pass. What is left has a comment of its own exactly if the pass brings a
slash and an asterisk together (`hasComment_dropComments_iff`): the two stand apart in the stylesheet, with nothing but
comments between them, and the end of a comment is left after them. Joining lines and trimming neither make nor break
comments (`hasComment_normalize`), so these stylesheets are the ones that a second normalization changes
(`normalize_normalize_iff`).
-/

namespace CosmeticFilter.Stylesheet

/-! ### Comments one after the other -/

/-- From the start of a text on, plain characters `kept` and comments are read, until `rest` is left. A comment ends at
the first end of a comment after its start. -/
inductive Reads : Text → Text → Text → Prop
  | done {rest : Text} : Reads rest [] rest
  | plain {c : Char} {t kept rest : Text} (hnot : ∀ more, c = '/' → t = '*' :: more → False) :
      Reads t kept rest → Reads (c :: t) (c :: kept) rest
  | comment {inside t kept rest : Text} (hinside : hasCommentEnd (inside ++ ['*']) = false) :
      Reads t kept rest → Reads ('/' :: '*' :: (inside ++ '*' :: '/' :: t)) kept rest

/-- A slash and an asterisk that only comments separate, and the end of a comment in what is left after them. -/
def Joins (t : Text) : Prop :=
  ∃ kept later after, Reads t kept ('/' :: later) ∧ later.head? ≠ some '*' ∧ Reads later [] ('*' :: after) ∧
    hasCommentEnd (dropComments after) = true

variable {c : Char} {t kept rest inside : Text}

theorem exists_inside (h : hasCommentEnd t = true) :
    ∃ inside rest, t = inside ++ '*' :: '/' :: rest ∧ hasCommentEnd (inside ++ ['*']) = false := by
  fun_induction hasCommentEnd t with
  | case1 rest => exact ⟨[], rest, rfl, rfl⟩
  | case2 c t hnot ih =>
    obtain ⟨inside, rest, rfl, hinside⟩ := ih h
    refine ⟨c :: inside, rest, rfl, ?_⟩
    rw [List.cons_append, hasCommentEnd.eq_2 _ _ ?_, hinside]
    intro more hc heq
    cases inside with
    | nil => cases heq
    | cons d inside =>
      cases heq
      exact hnot (inside ++ '*' :: '/' :: rest) hc rfl
  | case3 => cases h

theorem dropCommentsFrom_inside (h : hasCommentEnd (inside ++ ['*']) = false) :
    dropCommentsFrom true (inside ++ '*' :: '/' :: t) = dropComments t := by
  induction inside with
  | nil => rfl
  | cons c inside ih =>
    have hnot : ∀ more, c = '*' → inside ++ ['*'] = '/' :: more → False := by
      rintro more rfl heq
      rw [List.cons_append, heq] at h
      cases h
    rw [List.cons_append, hasCommentEnd.eq_2 _ _ hnot] at h
    rw [List.cons_append, dropCommentsFrom.eq_2 _ _ ?_, ih h]
    intro more hc heq
    cases inside with
    | nil => cases heq
    | cons d inside =>
      cases heq
      exact hnot _ hc rfl

theorem dropComments_comment (h : hasCommentEnd (inside ++ ['*']) = false) :
    dropComments ('/' :: '*' :: (inside ++ '*' :: '/' :: t)) = dropComments t := by
  have hend : hasCommentEnd (inside ++ '*' :: '/' :: t) = true := hasCommentEnd_iff.2 ⟨inside, t, rfl⟩
  rw [dropComments, dropCommentsFrom.eq_3, if_pos hend, dropCommentsFrom_inside h]

theorem dropComments_plain (h : ∀ more, c = '/' → t = '*' :: more → False) :
    dropComments (c :: t) = c :: dropComments t := dropCommentsFrom.eq_4 _ _ h

/-- What holds of the texts without comments, and is kept by a comment and by a plain character in front, holds of all
texts. -/
theorem comments_induction {P : Text → Prop} (hnone : ∀ t, ¬ HasComment t → P t)
    (hcomment : ∀ inside t, hasCommentEnd (inside ++ ['*']) = false → P t →
      P ('/' :: '*' :: (inside ++ '*' :: '/' :: t)))
    (hplain : ∀ c t, (∀ more, c = '/' → t = '*' :: more → False) → P t → P (c :: t)) (t : Text) : P t := by
  induction hn : t.length using Nat.strong_induction_on generalizing t with
  | _ n ih =>
  subst hn
  by_cases h : HasComment t
  · cases t with
    | nil => exact absurd h (not_hasComment_of_not_mem (by simp))
    | cons c t =>
      by_cases hstart : c = '/' ∧ ∃ more, t = '*' :: more
      · obtain ⟨rfl, more, rfl⟩ := hstart
        obtain ⟨inside, rest, rfl, hinside⟩ := exists_inside (hasComment_open.1 h)
        exact hcomment inside rest hinside (ih _ (by simp; omega) rest rfl)
      · exact hplain c t (fun more hc heq => hstart ⟨hc, more, heq⟩) (ih _ (Nat.lt_succ_self _) t rfl)
  · exact hnone t h

theorem Reads.dropComments_eq (h : Reads t kept rest) : dropComments t = kept ++ dropComments rest := by
  induction h with
  | done => rfl
  | plain hnot h ih => rw [dropComments_plain hnot, ih, List.cons_append]
  | comment hinside h ih => rw [dropComments_comment hinside, ih]

/-- What is left starts with an asterisk only if the text does, after some comments. -/
theorem reads_of_star {left : Text} (h : dropComments t = '*' :: left) :
    ∃ after, Reads t [] ('*' :: after) ∧ left = dropComments after := by
  induction t using comments_induction with
  | hnone t hnone =>
    rw [dropComments_eq_self hnone] at h
    subst h
    rw [hasComment_cons (by rintro more ⟨⟩)] at hnone
    exact ⟨left, .done, (dropComments_eq_self hnone).symm⟩
  | hcomment inside t hinside ih =>
    rw [dropComments_comment hinside] at h
    obtain ⟨after, hreads, hleft⟩ := ih h
    exact ⟨after, hreads.comment hinside, hleft⟩
  | hplain c t hnot ih =>
    rw [dropComments_plain hnot] at h
    cases h
    exact ⟨t, .done, rfl⟩

/-- A comment that is left has a slash and an asterisk that stood apart. -/
theorem hasComment_dropComments_iff : HasComment (dropComments t) ↔ Joins t := by
  constructor
  · intro h
    induction t using comments_induction with
    | hnone t hnone =>
      rw [dropComments_eq_self hnone] at h
      exact absurd h hnone
    | hcomment inside t hinside ih =>
      rw [dropComments_comment hinside] at h
      obtain ⟨kept, later, after, hreads, hjoin⟩ := ih h
      exact ⟨kept, later, after, hreads.comment hinside, hjoin⟩
    | hplain c t hnot ih =>
      rw [dropComments_plain hnot] at h
      by_cases hstart : c = '/' ∧ ∃ left, dropComments t = '*' :: left
      · obtain ⟨rfl, left, hleft⟩ := hstart
        obtain ⟨after, hreads, rfl⟩ := reads_of_star hleft
        rw [hleft, hasComment_open] at h
        refine ⟨[], t, after, .done, fun hhead => ?_, hreads, h⟩
        obtain ⟨more, hmore⟩ := List.head?_eq_some_iff.1 hhead
        exact hnot more rfl hmore
      · rw [hasComment_cons fun more hc hleft => hstart ⟨hc, more, hleft⟩] at h
        obtain ⟨kept, later, after, hreads, hjoin⟩ := ih h
        exact ⟨c :: kept, later, after, hreads.plain hnot, hjoin⟩
  · rintro ⟨kept, later, after, hreads, hhead, hbetween, hend⟩
    have hslash : ∀ more, '/' = '/' → later = '*' :: more → False := by
      rintro more - rfl
      exact hhead rfl
    have hstar : ∀ more, '*' = '/' → after = '*' :: more → False := by rintro more ⟨⟩
    obtain ⟨inside, left, hleft⟩ := hasCommentEnd_iff.1 hend
    refine ⟨kept, inside, left, ?_⟩
    rw [hreads.dropComments_eq, dropComments_plain hslash, hbetween.dropComments_eq, List.nil_append,
      dropComments_plain hstar, hleft]
    simp

/-! ### Characters between the delimiters -/

/-- The second text is the first one with some characters of class `p` as other ones, and with some left out before
another one. -/
inductive Respaced (p : Char → Bool) : Text → Text → Prop
  | nil : Respaced p [] []
  | keep {t u : Text} (c : Char) : Respaced p t u → Respaced p (c :: t) (c :: u)
  | change {c d : Char} {t u : Text} (hc : p c = true) (hd : p d = true) : Respaced p t u → Respaced p (c :: t) (d :: u)
  | drop {c d : Char} {t u : Text} (hc : p c = true) (hd : p d = true) :
      Respaced p (d :: t) u → Respaced p (c :: d :: t) u

namespace Respaced

variable {p : Char → Bool} {d : Char} {t u : Text}

theorem of_left (h : Respaced p (d :: t) u) (hd : p d = false) : ∃ more, u = d :: more ∧ Respaced p t more := by
  cases h with
  | keep c h => exact ⟨_, rfl, h⟩
  | change hc _ h => simp [hd] at hc
  | drop hc _ h => simp [hd] at hc

theorem of_right (h : Respaced p t (d :: u)) (hd : p d = false) : ∃ more, t = d :: more ∧ Respaced p more u := by
  generalize hright : d :: u = right at h
  induction h with
  | nil => cases hright
  | keep c h ih =>
    cases hright
    exact ⟨_, rfl, h⟩
  | change _ hd' h ih =>
    cases hright
    simp [hd] at hd'
  | drop _ hd' h ih =>
    obtain ⟨more, heq, -⟩ := ih hright
    cases heq
    simp [hd] at hd'

theorem length_le (h : Respaced p t u) : u.length ≤ t.length := by
  induction h with
  | nil => exact Nat.le_refl _
  | keep c h ih => exact Nat.succ_le_succ ih
  | change hc hd h ih => exact Nat.succ_le_succ ih
  | drop hc hd h ih => exact Nat.le_succ_of_le ih

/-- Delimiters are not brought together. -/
theorem not_starts (h : Respaced p t u) {x y : Char} (hy : p y = false)
    (hnot : ∀ more, c = x → t = y :: more → False) : ∀ more, c = x → u = y :: more → False := by
  rintro more hc rfl
  obtain ⟨before, rfl, -⟩ := h.of_right hy
  exact hnot before hc rfl

section

variable (hslash : p '/' = false) (hstar : p '*' = false)

include hslash hstar

theorem hasCommentEnd_eq (h : Respaced p t u) : hasCommentEnd t = hasCommentEnd u := by
  have hpart : ∀ {c : Char} {t : Text}, p c = true → hasCommentEnd (c :: t) = hasCommentEnd t := by
    intro c t hc
    refine hasCommentEnd.eq_2 _ _ ?_
    rintro more rfl
    simp [hstar] at hc
  induction h with
  | nil => rfl
  | @keep t u c h ih =>
    by_cases hend : c = '*' ∧ ∃ more, t = '/' :: more
    · obtain ⟨rfl, more, rfl⟩ := hend
      obtain ⟨more', rfl, -⟩ := h.of_left hslash
      rfl
    · have hnot : ∀ more, c = '*' → t = '/' :: more → False := fun more hc heq => hend ⟨hc, more, heq⟩
      rw [hasCommentEnd.eq_2 _ _ hnot, hasCommentEnd.eq_2 _ _ (h.not_starts hslash hnot), ih]
  | change hc hd h ih => rw [hpart hc, hpart hd, ih]
  | drop hc hd h ih => rw [hpart hc, ih]

theorem hasComment_iff (h : Respaced p t u) : HasComment t ↔ HasComment u := by
  have hpart : ∀ {c : Char} {t : Text}, p c = true → (HasComment (c :: t) ↔ HasComment t) := by
    intro c t hc
    refine hasComment_cons ?_
    rintro more rfl
    simp [hslash] at hc
  induction h with
  | nil => rfl
  | @keep t u c h ih =>
    by_cases hstart : c = '/' ∧ ∃ more, t = '*' :: more
    · obtain ⟨rfl, more, rfl⟩ := hstart
      obtain ⟨more', rfl, hmore⟩ := h.of_left hstar
      rw [hasComment_open, hasComment_open, hmore.hasCommentEnd_eq hslash hstar]
    · have hnot : ∀ more, c = '/' → t = '*' :: more → False := fun more hc heq => hstart ⟨hc, more, heq⟩
      exact (hasComment_cons hnot).trans (ih.trans (hasComment_cons (h.not_starts hstar hnot)).symm)
  | change hc hd h ih => exact (hpart hc).trans (ih.trans (hpart hd).symm)
  | drop hc hd h ih => exact (hpart hc).trans ih

/-- Taking comments out of both texts leaves them the same up to such characters. -/
theorem without_comments (h : Respaced p t u) : Respaced p (dropComments t) (dropComments u) := by
  have hfrom : ∀ inside t u, Respaced p t u → Respaced p (dropCommentsFrom inside t) (dropCommentsFrom inside u) := by
    intro inside t
    fun_induction dropCommentsFrom inside t with
    | case1 rest ih =>
      intro u h
      obtain ⟨u', rfl, hstarred⟩ := h.of_left hstar
      obtain ⟨more, rfl, hmore⟩ := hstarred.of_left hslash
      exact ih more hmore
    | case2 c rest hnot ih =>
      intro u h
      cases h with
      | keep _ h =>
        rw [dropCommentsFrom.eq_2 _ _ (h.not_starts hslash hnot)]
        exact ih _ h
      | change hc hd h =>
        rw [dropCommentsFrom.eq_2 _ _ (by rintro more rfl; simp [hstar] at hd)]
        exact ih _ h
      | drop hc hd h => exact ih _ h
    | case3 rest hend ih =>
      intro u h
      obtain ⟨u', rfl, hslashed⟩ := h.of_left hslash
      obtain ⟨more, rfl, hmore⟩ := hslashed.of_left hstar
      rw [dropCommentsFrom.eq_3, if_pos (hmore.hasCommentEnd_eq hslash hstar ▸ hend)]
      exact ih more hmore
    | case4 rest hend =>
      intro u h
      obtain ⟨u', rfl, hslashed⟩ := h.of_left hslash
      obtain ⟨more, rfl, hmore⟩ := hslashed.of_left hstar
      rw [dropCommentsFrom.eq_3, if_neg (hmore.hasCommentEnd_eq hslash hstar ▸ hend)]
      exact h
    | case5 c rest hnot ih =>
      intro u h
      cases h with
      | keep _ h =>
        rw [dropCommentsFrom.eq_4 _ _ (h.not_starts hstar hnot)]
        exact (ih _ h).keep c
      | change hc hd h =>
        rw [dropCommentsFrom.eq_4 _ _ (by rintro more rfl; simp [hslash] at hd)]
        exact (ih _ h).change hc hd
      | @drop _ d more _ hc hd h =>
        have hd' : dropCommentsFrom false (d :: more) = d :: dropCommentsFrom false more :=
          dropCommentsFrom.eq_4 _ _ (by rintro more rfl; simp [hslash] at hd)
        have hrest := ih _ h
        rw [hd'] at hrest ⊢
        exact hrest.drop hc hd
    | case6 inside =>
      intro u h
      cases h
      cases inside <;> exact .nil
  exact hfrom false t u h

end

end Respaced

/-! ### Joined lines -/

/-- Whether a character is a line break or a space. -/
def isGap (c : Char) : Bool := isBreak c || c = ' '

theorem respaced_joinLines (t : Text) : Respaced isGap t (joinLines t) := by
  have hbreak : ∀ {c : Char}, isBreak c = true → isGap c = true := fun hc => by simp [isGap, hc]
  induction t with
  | nil => exact .nil
  | cons c t ih =>
    rw [joinLines]
    split
    · next hc =>
      split
      · next hnext =>
        cases t with
        | nil => simp at hnext
        | cons d t => exact ih.drop (hbreak hc) (hbreak (by simpa using hnext))
      · exact ih.change (hbreak hc) rfl
    · exact ih.keep c

theorem isBreak_of_mem_joinLines (h : c ∈ joinLines t) : isBreak c = false := by
  induction t with
  | nil => cases h
  | cons d t ih =>
    rw [joinLines] at h
    split at h
    · split at h
      · exact ih h
      · rcases List.mem_cons.1 h with rfl | h
        · rfl
        · exact ih h
    · next hd =>
      rcases List.mem_cons.1 h with rfl | h
      · simpa using hd
      · exact ih h

/-! ### Normalized texts -/

theorem hasComment_lead {lead : Text} (h : '/' ∉ lead) : HasComment (lead ++ t) ↔ HasComment t := by
  induction lead with
  | nil => rfl
  | cons c lead ih =>
    rw [List.mem_cons, not_or] at h
    rw [List.cons_append, hasComment_cons fun more hc _ => h.1 hc.symm, ih h.2]

/-- Blank characters at the ends of a text are in no comment. -/
theorem hasComment_trimBlank (t : Text) : HasComment (Text.trimBlank t) ↔ HasComment t := by
  obtain ⟨front, back, ht, hfront, hback⟩ := Text.exists_eq_trim Text.isBlank t
  have hnot : ∀ {gap : Text} {c : Char}, Text.Blank gap → Text.isBlank c = false → c ∉ gap :=
    fun hgap hc hmem => Text.not_blank_of_mem hmem hc hgap
  have hdrop : dropComments (Text.trimBlank t ++ back) = dropComments (Text.trimBlank t) ++ back :=
    dropComments_append (hnot hback (by decide)) (hnot hback (by decide))
  rw [← Text.trimBlank, List.append_assoc] at ht
  conv_rhs => rw [ht, hasComment_lead (hnot hfront (by decide))]
  rw [hasComment_iff, hasComment_iff, hdrop, ne_eq, ne_eq, List.append_cancel_right_eq]

theorem hasComment_normalize : HasComment (normalize t) ↔ Joins t := by
  rw [normalize, hasComment_trimBlank, ← (respaced_joinLines _).hasComment_iff rfl rfl, hasComment_dropComments_iff]

theorem length_normalize_le (t : Text) : (normalize t).length ≤ (dropComments t).length :=
  Nat.le_trans Text.trim_infix.length_le (respaced_joinLines _).length_le

/-- A normalized text has no line breaks and no blank characters at its ends. It has a comment exactly if taking comments
out joins one, and these are the texts that change when they are normalized again. -/
theorem normalize_normalize_iff (t : Text) :
    (∀ c ∈ normalize t, isBreak c = false) ∧
      (∀ c, (normalize t).head? = some c ∨ (normalize t).getLast? = some c → Text.isBlank c = false) ∧
      (HasComment (normalize t) ↔ Joins t) ∧ (normalize (normalize t) = normalize t ↔ ¬ Joins t) := by
  have hbreak : ∀ c ∈ normalize t, isBreak c = false := fun c hc =>
    isBreak_of_mem_joinLines (Text.trim_infix.subset hc)
  refine ⟨hbreak, fun c hc => hc.elim Text.head?_trim Text.getLast?_trim, hasComment_normalize, ?_⟩
  rw [← hasComment_normalize]
  constructor
  · intro heq hcomment
    have hle := length_normalize_le (normalize t)
    have hshorter := length_dropComments_le hcomment
    rw [heq] at hle
    omega
  · intro hcomment
    rw [normalize, dropComments_eq_self hcomment, joinLines_eq_self hbreak]
    exact Text.trim_trim

/-- The comment between the slashes and the asterisk is taken out, and one of what stood around it is left. -/
theorem normalize_joins_comment :
    normalize "//**/* x */".toList = "/* x */".toList ∧ HasComment (normalize "//**/* x */".toList) ∧
      normalize (normalize "//**/* x */".toList) ≠ normalize "//**/* x */".toList := by
  have hjoined : normalize "//**/* x */".toList = "/* x */".toList := rfl
  have hagain : normalize "/* x */".toList = [] := rfl
  rw [hjoined, hagain]
  exact ⟨rfl, ⟨[], " x ".toList, [], rfl⟩, by decide⟩

end CosmeticFilter.Stylesheet
