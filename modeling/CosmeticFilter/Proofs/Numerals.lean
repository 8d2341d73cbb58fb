import CosmeticFilter.Proofs.Trimming
import CosmeticFilter.Text.Number
import Mathlib.Data.Nat.Digits.Defs

/-!
# Numerals

The decimal numeral of an integer is read back as that integer, up to the greatest number of digits that is read
(`Text.readInt?_ofInt`). Longer numerals are no integers to the reader.
-/

namespace CosmeticFilter.Text

variable {c : Char} {t : Text}

theorem digit?_of_isDigit (h : c.isDigit = true) : digit? c = some (c.toNat - '0'.toNat) := by
  have hrange : 0x30 ≤ c.toNat ∧ c.toNat < 0x30 + 10 := by
    have hle := Char.isDigit_iff_toNat.1 h
    exact ⟨hle.1, Nat.lt_succ_of_le hle.2⟩
  rw [digit?, digitZeros, List.findSome?_cons, if_pos hrange]
  rfl

theorem digits?_of_isDigit (hne : t ≠ []) (h : ∀ c ∈ t, c.isDigit = true) :
    digits? t = some (t.map fun c => c.toNat - '0'.toNat) := by
  fun_induction digits? t with
  | case1 => exact absurd rfl hne
  | case2 c => rw [digit?_of_isDigit (h c List.mem_cons_self)]; rfl
  | case3 c rest ih =>
    have hline : '_'.isDigit = true := h '_' (by simp)
    cases hline
  | case4 c rest hsingle hline ih =>
    rw [digit?_of_isDigit (h c List.mem_cons_self), Option.bind_some,
      ih (fun hnil => hsingle hnil) fun d hd => h d (List.mem_cons_of_mem _ hd)]
    rfl

theorem isDigit_of_mem_ofNat {n : Nat} (h : c ∈ ofNat n) : c.isDigit = true :=
  Nat.isDigit_of_mem_toDigits (by decide) (by decide) h

theorem exists_ofNat (n : Nat) : ∃ c rest, ofNat n = c :: rest ∧ c.isDigit = true := by
  obtain ⟨c, rest, h⟩ := List.exists_cons_of_ne_nil (Nat.toDigits_ne_nil : Nat.toDigits 10 n ≠ [])
  exact ⟨c, rest, h, isDigit_of_mem_ofNat (h ▸ List.mem_cons_self)⟩

theorem readNat?_ofNat (n : Nat) : readNat? (ofNat n) = if n < 10 ^ maxDigits then some n else none := by
  have hdigits := digits?_of_isDigit (t := ofNat n) Nat.toDigits_ne_nil fun c => isDigit_of_mem_ofNat
  have hvalue : ofDecimal ((ofNat n).map fun c => c.toNat - '0'.toNat) = n := by
    rw [ofDecimal, List.foldl_map, ← Nat.ofDigitChars_eq_foldl]
    exact Nat.ofDigitChars_ten_toDigits
  have hlength : (ofNat n).length ≤ maxDigits ↔ n < 10 ^ maxDigits :=
    Nat.length_toDigits_le_iff (by decide) (by decide)
  rw [readNat?, hdigits, Option.bind_some, List.length_map, hvalue]
  simp only [hlength]

theorem isMargin_of_isDigit (h : c.isDigit = true) : isMargin c = false := by
  have hle := Char.isDigit_iff_toNat.1 h
  have hlow : 48 ≤ c.toNat := hle.1
  have hhigh : c.toNat ≤ 57 := hle.2
  have hblank : isBlank c = false := by
    rw [← Bool.not_eq_true]
    intro hblank
    simp only [isBlank, blankRanges, List.any_cons, List.any_nil, Bool.or_false, Bool.or_eq_true, Bool.and_eq_true,
      decide_eq_true_eq] at hblank
    omega
  rw [isMargin, hblank, Bool.false_and]

theorem trim_ofInt (n : Int) : trim isMargin (ofInt n) = ofInt n := by
  have hdigit : ∀ (n : Nat) c, c ∈ ofNat n → isMargin c = false := fun n c hc =>
    isMargin_of_isDigit (isDigit_of_mem_ofNat hc)
  have hmargin : ∀ c ∈ ofInt n, isMargin c = false := by
    cases n with
    | ofNat n => exact hdigit n
    | negSucc n =>
      intro c hc
      rcases List.mem_cons.1 hc with rfl | hc
      · rfl
      · exact hdigit (n + 1) c hc
  exact trim_eq_self (fun c hc => hmargin c (List.mem_of_mem_head? hc)) fun c hc => hmargin c (List.mem_of_getLast? hc)

/-- The numeral of an integer is read as the integer, unless it has too many digits. -/
theorem readInt?_ofInt (n : Int) : readInt? (ofInt n) = if n.natAbs < 10 ^ maxDigits then some n else none := by
  rw [readInt?, trim_ofInt]
  cases n with
  | ofNat n =>
    obtain ⟨c, rest, heq, hdigit⟩ := exists_ofNat n
    have hread := readNat?_ofNat n
    show _ = if n < 10 ^ maxDigits then _ else _
    rw [ofInt]
    split
    · next hminus =>
      rw [heq] at hminus
      cases hminus
      cases hdigit
    · next hplus =>
      rw [heq] at hplus
      cases hplus
      cases hdigit
    · rw [hread]
      split <;> rfl
  | negSucc n =>
    show ((readNat? (ofNat (n + 1)) >>= fun n => pure (n : Int)).map fun n => -n) = _
    rw [readNat?_ofNat, Int.natAbs_negSucc]
    show _ = if n + 1 < 10 ^ maxDigits then _ else _
    split <;> rfl

end CosmeticFilter.Text
