import CosmeticFilter.Proofs.Trimming
import CosmeticFilter.Selector.Token
import Mathlib.Data.List.Chain

/-!
# What the tokens of a text are

The tokens that `Token.scan` returns stand for the text (`texts_scan`), and they are `Scanned`: every
mark is one character that is a mark, every word is a run of other characters, and no word follows a
word directly. Conversely every `Scanned` list is what its own text is cut into, up to the positions,
which `placed` computes (`scan_texts`). So a list of tokens can be changed token by token and read
back from its text, as long as it stays `Scanned`. With their positions the tokens are determined, and a
text is cut at its marks (`scan_exact`).
-/

namespace CosmeticFilter.Token

/-! ### Single tokens -/

/-- A token as the scanner makes it: a single mark, or a word without marks. -/
def Proper (t : Token) : Prop :=
  match t.kind with
  | .mark => ∃ c, CosmeticFilter.isMark c = true ∧ t.text = [c]
  | .word => t.text ≠ [] ∧ ∀ c ∈ t.text, CosmeticFilter.isMark c = false

theorem spells_iff {t : Token} {c : Char} : t.spells c = true ↔ t.text = [c] := by
  simp [spells]

theorem isOf_iff {t : Token} {p : Char → Bool} : t.isOf p = true ↔ ∃ c, t.text = [c] ∧ p c = true := by
  rw [isOf, Text.isOne.eq_def]
  split
  · next c h => simp [h]
  · next h =>
    constructor
    · intro hfalse
      cases hfalse
    · rintro ⟨c, hc, -⟩
      exact absurd hc (h c)

theorem isOf_of_text {t : Token} {c : Char} (h : t.text = [c]) (p : Char → Bool) : t.isOf p = p c := by
  rw [isOf, h]
  rfl

/-- White space is no other mark. -/
theorem text_ne_of_isSpace {t : Token} {d : Char} (ht : t.isOf Text.isSpace = true) (hd : Text.isSpace d = false) :
    t.text ≠ [d] := by
  intro htext
  rw [isOf_of_text htext, hd] at ht
  cases ht

theorem isWord_eq_false_iff {t : Token} : t.isWord = false ↔ t.kind = .mark := by
  cases h : t.kind <;> simp [isWord, h]

theorem proper_mark {c : Char} (position : Nat) (h : CosmeticFilter.isMark c = true) :
    Proper ⟨.mark, [c], position⟩ := ⟨c, h, rfl⟩

theorem proper_word {text : Text} (position : Nat) (hne : text ≠ [])
    (h : ∀ c ∈ text, CosmeticFilter.isMark c = false) : Proper ⟨.word, text, position⟩ := ⟨hne, h⟩

namespace Proper

theorem text_ne_nil {t : Token} (h : t.Proper) : t.text ≠ [] := by
  unfold Proper at h
  split at h
  · obtain ⟨c, -, hc⟩ := h
    simp [hc]
  · exact h.1

theorem mark {t : Token} (h : t.Proper) (hk : t.isWord = false) :
    ∃ c, CosmeticFilter.isMark c = true ∧ t.text = [c] := by
  rw [isWord_eq_false_iff] at hk
  simpa [Proper, hk] using h

theorem not_mark {t : Token} (h : t.Proper) (hk : t.isWord = true) :
    ∀ c ∈ t.text, CosmeticFilter.isMark c = false := by
  have hk : t.kind = .word := by simpa [isWord] using hk
  have h : t.text ≠ [] ∧ ∀ c ∈ t.text, CosmeticFilter.isMark c = false := by simpa [Proper, hk] using h
  exact h.2

/-- A token that holds a mark is that mark. -/
theorem text_of_mem {t : Token} {c : Char} (h : t.Proper) (hmem : c ∈ t.text)
    (hc : CosmeticFilter.isMark c = true) : t.text = [c] := by
  cases hword : t.isWord with
  | true =>
    have := h.not_mark hword c hmem
    rw [hc] at this
    cases this
  | false =>
    obtain ⟨d, -, hd⟩ := h.mark hword
    rw [hd, List.mem_singleton] at hmem
    rw [hd, hmem]

theorem isWord_of_text {t : Token} {c : Char} (h : t.Proper) (htext : t.text = [c])
    (hc : CosmeticFilter.isMark c = true) : t.isWord = false := by
  by_contra hk
  rw [Bool.not_eq_false] at hk
  have := h.not_mark hk c (by simp [htext])
  rw [hc] at this
  cases this

end Proper

/-! ### Lists of tokens -/

/-- The text that tokens stand for. -/
def texts (tokens : List Token) : Text := tokens.flatMap Token.text

@[simp] theorem texts_nil : texts [] = [] := rfl

@[simp] theorem texts_cons (t : Token) (rest : List Token) : texts (t :: rest) = t.text ++ texts rest := by
  simp [texts]

@[simp] theorem texts_append (a b : List Token) : texts (a ++ b) = texts a ++ texts b := by
  simp [texts]

/-- The tokens with the positions that they have in their own text, from `position` on. -/
def placed (position : Nat) : List Token → List Token
  | [] => []
  | t :: rest => { t with position } :: placed (position + t.text.length) rest

/-- A list that the scanner could return, positions apart. -/
structure Scanned (tokens : List Token) : Prop where
  proper : ∀ t ∈ tokens, t.Proper
  apart : tokens.IsChain fun a b => a.isWord = false ∨ b.isWord = false

namespace Scanned

theorem nil : Scanned [] := ⟨by simp, .nil⟩

theorem head {t : Token} {rest : List Token} (h : Scanned (t :: rest)) : t.Proper :=
  h.proper t (by simp)

theorem tail {t : Token} {rest : List Token} (h : Scanned (t :: rest)) : Scanned rest :=
  ⟨fun u hu => h.proper u (by simp [hu]), h.apart.tail⟩

theorem drop {tokens : List Token} (h : Scanned tokens) (n : Nat) : Scanned (tokens.drop n) :=
  ⟨fun t ht => h.proper t (List.mem_of_mem_drop ht), h.apart.drop n⟩

theorem cons {t : Token} {rest : List Token} (ht : t.Proper) (h : Scanned rest)
    (hap : ∀ u, rest.head? = some u → t.isWord = false ∨ u.isWord = false) : Scanned (t :: rest) := by
  refine ⟨by simpa using ⟨ht, h.proper⟩, List.isChain_cons.2 ⟨fun u hu => hap u ?_, h.apart⟩⟩
  simpa using hu

theorem cons_mark {t : Token} {rest : List Token} (ht : t.Proper) (hk : t.isWord = false)
    (h : Scanned rest) : Scanned (t :: rest) :=
  h.cons ht fun _ _ => .inl hk

theorem append {a b : List Token} (ha : Scanned a) (hb : Scanned b)
    (hmark : (∀ t, a.getLast? = some t → t.isWord = false) ∨ ∀ t, b.head? = some t → t.isWord = false) :
    Scanned (a ++ b) := by
  refine ⟨fun t ht => (List.mem_append.1 ht).elim (ha.proper t) (hb.proper t), ?_⟩
  refine List.isChain_append.2 ⟨ha.apart, hb.apart, fun t ht u hu => ?_⟩
  exact hmark.imp (fun h => h t ht) fun h => h u hu

end Scanned

/-! ### Scanning -/

theorem consWord_of_not_word {c : Char} {position : Nat} {tokens : List Token}
    (h : ∀ t, tokens.head? = some t → t.isWord = false) :
    consWord c position tokens = ⟨.word, [c], position⟩ :: tokens := by
  match tokens with
  | [] => rfl
  | ⟨.word, text, p⟩ :: rest => simpa [isWord] using h _ rfl
  | ⟨.mark, text, p⟩ :: rest => rfl

theorem texts_consWord (c : Char) (position : Nat) (tokens : List Token) :
    texts (consWord c position tokens) = c :: texts tokens := by
  match tokens with
  | [] => rfl
  | ⟨.word, text, p⟩ :: rest => simp [consWord]
  | ⟨.mark, text, p⟩ :: rest => simp [consWord]

theorem texts_scanFrom (position : Nat) (t : Text) : texts (scanFrom position t) = t := by
  induction t generalizing position with
  | nil => rfl
  | cons c rest ih =>
    rw [scanFrom]
    split
    · simp [ih]
    · rw [texts_consWord, ih]

theorem texts_scan (t : Text) : texts (scan t) = t := texts_scanFrom 0 t

theorem scanned_consWord {c : Char} {position : Nat} {tokens : List Token} (h : Scanned tokens)
    (hc : CosmeticFilter.isMark c = false) : Scanned (consWord c position tokens) := by
  match tokens with
  | [] => exact .cons (proper_word _ (by simp) (by simpa using hc)) .nil (by simp)
  | ⟨.word, text, p⟩ :: rest =>
    have hmarks : ∀ d ∈ text, CosmeticFilter.isMark d = false := h.head.2
    refine .cons (proper_word _ (by simp) ?_) h.tail ?_
    · intro d hd
      rcases List.mem_cons.1 hd with rfl | hd
      · exact hc
      · exact hmarks d hd
    · intro u hu
      exact (List.isChain_cons.1 h.apart).1 u (by simpa using hu)
  | ⟨.mark, text, p⟩ :: rest =>
    refine .cons (proper_word _ (by simp) (by simpa using hc)) h ?_
    intro u hu
    cases hu
    exact .inr rfl

theorem scanned_scanFrom (position : Nat) (t : Text) : Scanned (scanFrom position t) := by
  induction t generalizing position with
  | nil => exact .nil
  | cons c rest ih =>
    rw [scanFrom]
    split
    · next hc => exact .cons_mark (proper_mark _ hc) rfl (ih _)
    · next hc => exact scanned_consWord (ih _) (by simpa using hc)

/-- The scanner returns marks and words, no two words next to each other. -/
theorem scanned_scan (t : Text) : Scanned (scan t) := scanned_scanFrom 0 t

theorem head?_placed (position : Nat) (tokens : List Token) :
    (placed position tokens).head? = tokens.head?.map fun t => { t with position } := by
  cases tokens <;> rfl

/-- A word before something else is cut off as one token. -/
theorem scanFrom_word {w : Text} {position : Nat} {more : Text} (hne : w ≠ [])
    (hw : ∀ c ∈ w, CosmeticFilter.isMark c = false)
    (hmore : ∀ t, (scanFrom (position + w.length) more).head? = some t → t.isWord = false) :
    scanFrom position (w ++ more) = ⟨.word, w, position⟩ :: scanFrom (position + w.length) more := by
  induction w generalizing position with
  | nil => exact absurd rfl hne
  | cons c w ih =>
    have hc : CosmeticFilter.isMark c = false := hw c (by simp)
    rw [List.cons_append, scanFrom, if_neg (by simp [hc])]
    cases w with
    | nil => exact consWord_of_not_word hmore
    | cons d w =>
      have hlen : position + 1 + (d :: w).length = position + (c :: d :: w).length := by
        simp only [List.length_cons]; omega
      rw [ih (by simp) (fun e he => hw e (by simp [he])) (by rwa [hlen]), hlen]
      rfl

theorem consWord_append {c : Char} {position : Nat} {a b : List Token}
    (hb : ∀ t, b.head? = some t → t.isWord = false) :
    consWord c position (a ++ b) = consWord c position a ++ b := by
  match a with
  | [] => exact consWord_of_not_word hb
  | ⟨.word, text, p⟩ :: rest => rfl
  | ⟨.mark, text, p⟩ :: rest => rfl

/-- A text is cut before every mark. -/
theorem scanFrom_append {a b : Text} {position : Nat}
    (hb : ∀ c, b.head? = some c → CosmeticFilter.isMark c = true) :
    scanFrom position (a ++ b) = scanFrom position a ++ scanFrom (position + a.length) b := by
  induction a generalizing position with
  | nil => simp [scanFrom]
  | cons c a ih =>
    have hlen : position + 1 + a.length = position + (c :: a).length := by
      simp only [List.length_cons]
      omega
    have hnot : ∀ t, (scanFrom (position + (c :: a).length) b).head? = some t → t.isWord = false := by
      intro t ht
      cases b with
      | nil => cases ht
      | cons d b =>
        rw [scanFrom, if_pos (hb d rfl)] at ht
        cases ht
        rfl
    rw [List.cons_append, scanFrom, scanFrom, ih, hlen]
    split
    · rfl
    · exact consWord_append hnot

/-- A list of tokens that the scanner could return is what it returns for their text. -/
theorem scanFrom_texts {tokens : List Token} (position : Nat) (h : Scanned tokens) :
    scanFrom position (texts tokens) = placed position tokens := by
  induction tokens generalizing position with
  | nil => rfl
  | cons t rest ih =>
    obtain ⟨kind, text, p⟩ := t
    rw [texts_cons, placed]
    cases kind with
    | mark =>
      obtain ⟨c, hc, rfl⟩ : ∃ c, CosmeticFilter.isMark c = true ∧ text = [c] := h.head
      simp [scanFrom, hc, ih _ h.tail]
    | word =>
      obtain ⟨hne, hw⟩ : text ≠ [] ∧ ∀ c ∈ text, CosmeticFilter.isMark c = false := h.head
      have hrest := ih (position + text.length) h.tail
      rw [scanFrom_word hne hw, hrest]
      -- the next token is no word, because this one is
      intro u hu
      rw [hrest, head?_placed] at hu
      obtain ⟨v, hv, rfl⟩ := Option.map_eq_some_iff.1 hu
      rcases (List.isChain_cons.1 h.apart).1 v (by simpa using hv) with hword | hword
      · cases hword
      · exact hword

theorem scanFrom_eq_placed (position : Nat) (t : Text) : scanFrom position t = placed position (scan t) := by
  rw [← scanFrom_texts position (scanned_scan t), texts_scan]

theorem scan_texts {tokens : List Token} (h : Scanned tokens) : scan (texts tokens) = placed 0 tokens :=
  scanFrom_texts 0 h

/-! ### The only tokens of a text -/

/-- The token where `n` more characters stand before it. -/
def shift (n : Nat) (t : Token) : Token := { t with position := n + t.position }

/-- Every token starts where the tokens before it end. -/
def Consecutive (tokens : List Token) : Prop :=
  ∀ before t after, tokens = before ++ t :: after → t.position = (texts before).length

theorem placed_eq_self_iff {tokens : List Token} (position : Nat) : placed position tokens = tokens ↔
    ∀ before t after, tokens = before ++ t :: after → t.position = position + (texts before).length := by
  induction tokens generalizing position with
  | nil => simp [placed]
  | cons u rest ih =>
    obtain ⟨kind, text, start⟩ := u
    rw [placed, List.cons.injEq, ih]
    constructor
    · rintro ⟨hstart, hrest⟩ before t after heq
      cases before with
      | nil =>
        cases heq
        exact (Token.mk.inj hstart).2.2.symm
      | cons v before =>
        cases heq
        rw [hrest before t after rfl, texts_cons, List.length_append, Nat.add_assoc]
    · intro h
      have hstart : start = position := h [] _ rest rfl
      refine ⟨by rw [hstart], fun before t after heq => ?_⟩
      rw [h (⟨kind, text, start⟩ :: before) t after (by rw [heq]; rfl), texts_cons, List.length_append, Nat.add_assoc]

theorem consecutive_iff {tokens : List Token} : Consecutive tokens ↔ placed 0 tokens = tokens := by
  simp only [Consecutive, placed_eq_self_iff, Nat.zero_add]

theorem placed_scan (t : Text) : placed 0 (scan t) = scan t := (scanFrom_eq_placed 0 t).symm

theorem placed_append (position : Nat) (a b : List Token) :
    placed position (a ++ b) = placed position a ++ placed (position + (texts a).length) b := by
  induction a generalizing position with
  | nil => rfl
  | cons t a ih =>
    rw [List.cons_append, placed, placed, ih, texts_cons, List.length_append, Nat.add_assoc]
    rfl

theorem map_shift_placed (n position : Nat) (tokens : List Token) :
    (placed position tokens).map (shift n) = placed (n + position) tokens := by
  induction tokens generalizing position with
  | nil => rfl
  | cons t rest ih =>
    rw [placed, placed, List.map_cons, ih, Nat.add_assoc]
    rfl

/-- The last token of a text that ends in a mark is that mark. -/
theorem isWord_getLast?_scan {a : Text} {c : Char} (h : a.getLast? = some c) (hc : CosmeticFilter.isMark c = true) :
    ∀ t, (scan a).getLast? = some t → t.isWord = false := by
  intro t ht
  obtain ⟨before, htokens⟩ := List.getLast?_eq_some_iff.1 ht
  have hproper : t.Proper := (scanned_scan a).proper t (List.mem_of_getLast? ht)
  have hlast : t.text.getLast? = some c := by
    have htexts := texts_scan a
    rw [htokens, texts_append, texts_cons, texts_nil, List.append_nil] at htexts
    rwa [← htexts, List.getLast?_append_of_ne_nil _ hproper.text_ne_nil] at h
  exact hproper.isWord_of_text (hproper.text_of_mem (List.mem_of_getLast? hlast) hc) hc

/-- The first token of a text that starts with a mark is that mark. -/
theorem isWord_head?_scan {b : Text} {c : Char} (h : b.head? = some c) (hc : CosmeticFilter.isMark c = true) :
    ∀ t, (scan b).head? = some t → t.isWord = false := by
  intro t ht
  obtain ⟨rest, rfl⟩ := List.head?_eq_some_iff.1 h
  rw [scan, scanFrom, if_pos hc] at ht
  cases ht
  rfl

/-- The tokens of a text are the only ones that stand for it, start where the ones before them end, and are `Scanned`:
single marks, and words without marks that are not empty and of which none follows another. So a text is cut before and
after its marks, and has the tokens of its parts. -/
theorem scan_exact :
    (∀ (text : Text) (tokens : List Token),
      tokens = scan text ↔ texts tokens = text ∧ Consecutive tokens ∧ Scanned tokens) ∧
    ∀ a b : Text, (∃ c, CosmeticFilter.isMark c = true ∧ (a.getLast? = some c ∨ b.head? = some c)) →
      scan (a ++ b) = scan a ++ (scan b).map (shift a.length) := by
  constructor
  · intro text tokens
    rw [consecutive_iff]
    constructor
    · rintro rfl
      exact ⟨texts_scan text, placed_scan text, scanned_scan text⟩
    · rintro ⟨rfl, hplaced, hscanned⟩
      rw [scan_texts hscanned, hplaced]
  · rintro a b ⟨c, hc, hcut⟩
    have hscanned : Scanned (scan a ++ scan b) := by
      refine (scanned_scan a).append (scanned_scan b) ?_
      exact hcut.imp (fun h => isWord_getLast?_scan h hc) fun h => isWord_head?_scan h hc
    calc scan (a ++ b)
        = scan (texts (scan a ++ scan b)) := by rw [texts_append, texts_scan, texts_scan]
      _ = placed 0 (scan a ++ scan b) := scan_texts hscanned
      _ = scan a ++ placed (a.length + 0) (scan b) := by
        rw [placed_append, placed_scan, texts_scan, Nat.zero_add, Nat.add_zero]
      _ = scan a ++ (scan b).map (shift a.length) := by rw [← map_shift_placed, placed_scan]

/-! ### White space at the end -/

/-- The tokens do not end in white space. -/
def Trimmed (tokens : List Token) : Prop := ∀ t, tokens.getLast? = some t → t.isOf Text.isSpace = false

theorem Trimmed.drop {tokens : List Token} (h : Trimmed tokens) (n : Nat) : Trimmed (tokens.drop n) := by
  intro t ht
  rw [List.getLast?_drop] at ht
  split at ht
  · cases ht
  · exact h t ht

theorem trimmed_scanFrom {t : Text} (position : Nat) (h : ∀ c, t.getLast? = some c → Text.isSpace c = false) :
    Trimmed (scanFrom position t) := by
  intro last hlast
  by_contra hspace
  rw [Bool.not_eq_false, isOf_iff] at hspace
  obtain ⟨c, hc, hspace⟩ := hspace
  obtain ⟨before, htokens⟩ := List.getLast?_eq_some_iff.1 hlast
  have htext := texts_scanFrom position t
  rw [htokens, texts_append, texts_cons, hc, texts_nil, List.append_nil] at htext
  have hend : t.getLast? = some c := by rw [← htext]; simp
  rw [h c hend] at hspace
  cases hspace

theorem trimmed_scan (t : Text) : Trimmed (scan (Text.trimSpace t)) :=
  trimmed_scanFrom 0 fun _ hend => Text.getLast?_trim hend

end CosmeticFilter.Token
