import CosmeticFilter.Text.Blank
import Mathlib.Data.List.TakeWhile

/-!
# Trimmed texts

`Text.trim p` takes the characters of class `p` off both ends of a text. What is left does not start
or end with such a character, and a text of that kind is left as it is.
-/

namespace CosmeticFilter.Text

variable {p : Char → Bool} {t : Text} {c : Char}

theorem dropWhile_eq_self (h : ∀ c, t.head? = some c → p c = false) : t.dropWhile p = t := by
  cases t with
  | nil => rfl
  | cons c t => rw [List.dropWhile_cons_of_neg (by simp [h c rfl])]

theorem trim_prefix : trim p t <+: t.dropWhile p := by
  rw [trim, ← List.reverse_suffix, List.reverse_reverse]
  exact List.dropWhile_suffix _

theorem head?_trim (h : (trim p t).head? = some c) : p c = false := by
  obtain ⟨more, hmore⟩ := trim_prefix (p := p) (t := t)
  have hnot := List.head?_dropWhile_not p t
  rw [← hmore, List.head?_append, h] at hnot
  simpa using hnot

theorem getLast?_trim (h : (trim p t).getLast? = some c) : p c = false := by
  rw [trim, List.getLast?_reverse] at h
  have hnot := List.head?_dropWhile_not p (t.dropWhile p).reverse
  rw [h] at hnot
  simpa using hnot

theorem trim_eq_self (hhead : ∀ c, t.head? = some c → p c = false)
    (hlast : ∀ c, t.getLast? = some c → p c = false) : trim p t = t := by
  rw [trim, dropWhile_eq_self hhead, dropWhile_eq_self, List.reverse_reverse]
  intro c hc
  rw [List.head?_reverse] at hc
  exact hlast c hc

theorem trim_trim : trim p (trim p t) = trim p t := trim_eq_self (fun _ => head?_trim) fun _ => getLast?_trim

theorem trim_eq_nil_iff : trim p t = [] ↔ ∀ c ∈ t, p c = true := by
  rw [trim, List.reverse_eq_nil_iff, List.dropWhile_eq_nil_iff]
  constructor
  · intro h c hc
    rw [← List.takeWhile_append_dropWhile (p := p) (l := t)] at hc
    rcases List.mem_append.1 hc with hc | hc
    · exact List.mem_takeWhile_imp hc
    · exact h c (List.mem_reverse.2 hc)
  · intro h c hc
    exact h c ((List.dropWhile_sublist p).mem (List.mem_reverse.1 hc))

/-- Characters of the class after a text do not matter. -/
theorem trim_append_of_all {gap : Text} (h : ∀ c ∈ gap, p c = true) : trim p (t ++ gap) = trim p t := by
  have hgap : gap.dropWhile p = [] := List.dropWhile_eq_nil_iff.2 h
  rw [trim, trim, List.dropWhile_append]
  split
  · next hempty => rw [hgap, List.isEmpty_iff.1 hempty]
  · rw [List.reverse_append, List.dropWhile_append_of_pos]
    exact fun c hc => h c (List.mem_reverse.1 hc)

/-- Trimming takes characters of the class from the front and from the back. -/
theorem exists_eq_trim (p : Char → Bool) (t : Text) : ∃ front back, t = front ++ trim p t ++ back ∧
    (∀ c ∈ front, p c = true) ∧ ∀ c ∈ back, p c = true := by
  refine ⟨t.takeWhile p, ((t.dropWhile p).reverse.takeWhile p).reverse, ?_, ?_, ?_⟩
  · rw [trim, List.append_assoc, ← List.reverse_append, List.takeWhile_append_dropWhile,
      List.reverse_reverse, List.takeWhile_append_dropWhile]
  · exact fun c hc => List.mem_takeWhile_imp hc
  · exact fun c hc => List.mem_takeWhile_imp (List.mem_reverse.1 hc)

/-- A last character that is not of the class stays. -/
theorem getLast?_trim_of_getLast? (h : t.getLast? = some c) (hc : p c = false) : (trim p t).getLast? = some c := by
  obtain ⟨front, back, ht, hfront, hback⟩ := exists_eq_trim p t
  have hne : ∀ part : Text, (∀ d ∈ part, p d = true) → part.getLast? ≠ some c := by
    intro part hpart hlast
    rw [hpart c (List.mem_of_getLast? hlast)] at hc
    cases hc
  rw [ht, List.getLast?_append, List.getLast?_append] at h
  cases hb : back.getLast? with
  | some d =>
    rw [hb] at h
    exact absurd (hb.trans h) (hne back hback)
  | none =>
    cases htrim : (trim p t).getLast? with
    | some d => simpa [hb, htrim] using h
    | none => exact absurd (by simpa [hb, htrim] using h) (hne front hfront)

theorem trim_lead {lead : Text} (h : ∀ d ∈ lead, p d = true) : trim p (lead ++ t) = trim p t := by
  rw [trim, List.dropWhile_append_of_pos h]
  rfl

theorem trim_of_head (h : ∀ d, t.head? = some d → p d = false) : trim p t = (t.reverse.dropWhile p).reverse := by
  rw [trim, dropWhile_eq_self h]

/-- A first character that is not of the class stays. -/
theorem exists_trim_cons (hc : p c = false) (t : Text) : ∃ more, trim p (c :: t) = c :: more := by
  rw [trim_of_head (by simpa using hc), List.reverse_cons, List.dropWhile_append]
  split
  · exact ⟨[], by simp [hc]⟩
  · exact ⟨(t.reverse.dropWhile p).reverse, by simp⟩

/-- What is taken off the end of a text that starts with such a character. -/
theorem exists_gap_of_trim_cons {rest : Text} (hc : p c = false) (h : trim p (c :: t) = c :: rest) :
    ∃ gap, t = rest ++ gap ∧ ∀ d ∈ gap, p d = true := by
  obtain ⟨front, gap, ht, hfront, hgap⟩ := exists_eq_trim p (c :: t)
  rw [h] at ht
  cases front with
  | nil => exact ⟨gap, (List.cons.inj ht).2, hgap⟩
  | cons d front =>
    obtain rfl : c = d := (List.cons.inj ht).1
    rw [hfront c (by simp)] at hc
    cases hc

/-- Where a text goes on with a character that is not of the class, what was taken off its end is kept. -/
theorem exists_trim_append (hne : trim p t ≠ []) : ∃ front gap, t = front ++ trim p t ++ gap ∧
    (∀ d ∈ gap, p d = true) ∧
    ∀ c more, p c = false → trim p (t ++ c :: more) = trim p t ++ (gap ++ trim p (c :: more)) := by
  obtain ⟨front, gap, ht, hfront, hgap⟩ := exists_eq_trim p t
  refine ⟨front, gap, ht, hgap, fun c more hc => ?_⟩
  have hhead : ∀ d, (trim p t ++ gap ++ c :: more).head? = some d → p d = false := by
    intro d hd
    obtain ⟨e, body, hbody⟩ := List.exists_cons_of_ne_nil hne
    have he : p e = false := head?_trim (t := t) (by rw [hbody]; rfl)
    rw [hbody] at hd
    cases hd
    exact he
  have hkept : ((c :: more).reverse.dropWhile p).isEmpty = false := by
    rw [← Bool.not_eq_true, List.isEmpty_iff, List.dropWhile_eq_nil_iff]
    intro hall
    rw [hall c (by simp)] at hc
    cases hc
  have hwhole : t ++ c :: more = front ++ (trim p t ++ gap ++ c :: more) := by
    rw [← List.append_assoc, ← List.append_assoc, ← ht]
  rw [hwhole, trim_lead hfront, trim_of_head hhead, List.reverse_append, List.dropWhile_append, hkept,
    trim_of_head (t := c :: more) (by simpa using hc)]
  simp

theorem trim_infix : trim p t <:+: t := by
  obtain ⟨front, back, ht, -, -⟩ := exists_eq_trim p t
  exact ⟨front, back, ht.symm⟩

/-! ### Blank texts -/

/-- The text has no character that is not blank. -/
def Blank (t : Text) : Prop := ∀ c ∈ t, isBlank c = true

instance : Decidable (Blank t) := decidable_of_iff (t.all isBlank = true) List.all_eq_true

theorem trimBlank_eq_nil_iff : trimBlank t = [] ↔ Blank t := trim_eq_nil_iff

theorem blank_append {a b : Text} : Blank (a ++ b) ↔ Blank a ∧ Blank b := List.forall_mem_append

theorem blank_lead {lead : Text} (h : Blank lead) : Blank (lead ++ t) ↔ Blank t := by
  simp [blank_append, h]

theorem trimBlank_lead {lead : Text} (h : Blank lead) : trimBlank (lead ++ t) = trimBlank t := trim_lead h

theorem blank_takeWhile (t : Text) : Blank (t.takeWhile isBlank) := fun _ hc => List.mem_takeWhile_imp hc

theorem not_blank_of_mem (hmem : c ∈ t) (hc : isBlank c = false) : ¬ Blank t := by
  intro h
  rw [h c hmem] at hc
  cases hc

end CosmeticFilter.Text
