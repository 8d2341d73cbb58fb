import CosmeticFilter.Proofs.Arguments
import CosmeticFilter.Proofs.Cuts

/-!
# Verbatim arguments

`SelectorList.parse_verbatim_iff` says which texts between the parentheses of an absolute pseudo-class are its
argument as they stand.

Such a text is cut from left to right into regular expressions between slashes and single characters around them
(`Regexp.Cut`). Whether a slash opens a regular expression depends on all of the text before it, and the closing
parenthesis is the first one that does not match an opening one among the single characters (`Text.Nested`).

The compiler reads tokens, but inside an argument it might as well read characters (`scan_eq_some_iff`). What it
knows after some of them is a cut of them, perhaps with a regular expression that is open at their end
(`Argument.Fits`). Where the argument ends too early, it is a shorter text, and the part with this text stays in
the result (`Reaches.keeps_trail`), so the result is another one.
-/

namespace CosmeticFilter

/-! ### Nested parentheses -/

namespace Text

/-- No parenthesis closes more than was opened, and at the end `depth` of them are open. -/
structure Nested (depth : Nat) (t : Text) : Prop where
  closed : ∀ before, before <+: t → before.count Mark.parenRight ≤ before.count Mark.parenLeft
  opened : t.count Mark.parenLeft = t.count Mark.parenRight + depth

namespace Nested

variable {depth : Nat} {t : Text} {c : Char}

theorem nil : Nested 0 [] := by
  refine ⟨fun before hbefore => ?_, rfl⟩
  rw [List.prefix_nil.1 hbefore]
  exact Nat.le_refl _

/-- A parenthesis at the end opens or closes one. -/
theorem concat_iff {depth' : Nat} : Nested depth' (t ++ [c]) ↔
    ∃ depth, Nested depth t ∧ depth + [c].count Mark.parenLeft = depth' + [c].count Mark.parenRight := by
  have hleft : (t ++ [c]).count Mark.parenLeft = t.count Mark.parenLeft + [c].count Mark.parenLeft :=
    List.count_append
  have hright : (t ++ [c]).count Mark.parenRight = t.count Mark.parenRight + [c].count Mark.parenRight :=
    List.count_append
  constructor
  · intro h
    have hwhole := h.opened
    have hbefore : t.count Mark.parenRight ≤ t.count Mark.parenLeft := h.closed t (List.prefix_append _ _)
    refine ⟨t.count Mark.parenLeft - t.count Mark.parenRight, ⟨fun before hstart => ?_, by omega⟩, by omega⟩
    exact h.closed before (hstart.trans (List.prefix_append _ _))
  · rintro ⟨depth, h, hdepth⟩
    have hbefore := h.opened
    refine ⟨fun before hstart => ?_, by omega⟩
    rcases List.prefix_concat_iff.1 hstart with rfl | hstart
    · omega
    · exact h.closed before hstart

theorem left_iff : Nested depth (t ++ [Mark.parenLeft]) ↔ ∃ outer, Nested outer t ∧ outer + 1 = depth :=
  concat_iff

theorem right_iff : Nested depth (t ++ [Mark.parenRight]) ↔ Nested (depth + 1) t := by
  refine concat_iff.trans ⟨?_, fun h => ⟨depth + 1, h, rfl⟩⟩
  rintro ⟨inner, h, rfl⟩
  exact h

theorem other_iff (hleft : c ≠ Mark.parenLeft) (hright : c ≠ Mark.parenRight) :
    Nested depth (t ++ [c]) ↔ Nested depth t := by
  rw [concat_iff, List.count_eq_zero.2 (by simpa using hleft.symm), List.count_eq_zero.2 (by simpa using hright.symm)]
  constructor
  · rintro ⟨inner, h, rfl⟩
    exact h
  · exact fun h => ⟨depth, h, rfl⟩

end Nested

end Text

/-! ### Regular expressions in a text -/

namespace Regexp

/-- A slash after the part `before` of the argument of `name` may open a regular expression. -/
def Allows (name before : Text) : Prop :=
  name ≠ PseudoClass.xpathName ∧
    if name ∈ PseudoClass.containsNames then
      before = [] ∨ before = [Mark.singleQuote] ∨ before = [Mark.doubleQuote]
    else before = [] ∨ ∃ c ∈ openingMarks, before.getLast? = some c

/-- A slash after the part `before` of the argument of `name` is a character like others. Two slashes in a row are
refused where regular expressions may stand anywhere. -/
def Ignores (name before : Text) : Prop :=
  ¬ Allows name before ∧ (name ≠ PseudoClass.xpathName → name ∉ PseudoClass.containsNames →
    before.getLast? ≠ some Mark.slash)

/-- The text `w` in the argument of `name` is cut into regular expressions and the characters `plain`. -/
inductive Cut (name : Text) : (w plain : Text) → Prop
  | nil : Cut name [] []
  | char {w plain : Text} {c : Char} (before : Cut name w plain) (other : c ≠ Mark.slash) :
      Cut name (w ++ [c]) (plain ++ [c])
  | slash {w plain : Text} (before : Cut name w plain) (ignored : Ignores name w) :
      Cut name (w ++ [Mark.slash]) (plain ++ [Mark.slash])
  /-- Slashes inside a regular expression stand directly after a backslash, the one that closes it does not. -/
  | regexp {w plain body : Text} (before : Cut name w plain) (allowed : Allows name w)
      (escaped : Text.Free (· == Mark.slash) body) (closed : ¬ Text.Escapes body) :
      Cut name (w ++ Mark.slash :: (body ++ [Mark.slash])) plain

variable {name before : Text}

theorem isOne_isQuote_iff : Text.isOne Mark.isQuote before = true ↔
    before = [Mark.singleQuote] ∨ before = [Mark.doubleQuote] := by
  rw [Text.isOne.eq_def]
  split
  · simp [Mark.isQuote, Mark.quotes]
  · next h =>
    constructor
    · intro hfalse
      cases hfalse
    · rintro (hquote | hquote)
      · exact absurd hquote (h _)
      · exact absurd hquote (h _)

theorem opensIn_eq_ok_true_iff : opensIn name before = .ok true ↔ Allows name before := by
  rw [opensIn, Allows]
  by_cases hxpath : name = PseudoClass.xpathName
  · simp [hxpath]
  · by_cases hcontains : name ∈ PseudoClass.containsNames
    · simp [hxpath, hcontains, isOne_isQuote_iff]
    · have hslash : Mark.slash ∉ openingMarks := by decide
      have hleft : Mark.parenLeft ∈ openingMarks := by decide
      cases hlast : before.getLast? with
      | none =>
        have hnil := List.getLast?_eq_none_iff.1 hlast
        simp [hxpath, hcontains, hnil, hleft, show Mark.parenLeft ≠ Mark.slash by decide]
      | some c =>
        have hne : before ≠ [] := by
          rintro rfl
          cases hlast
        by_cases hc : c = Mark.slash
        · simp [hxpath, hcontains, hc, hslash, hne]
        · simp [hxpath, hcontains, hc, hne]

theorem opensIn_eq_ok_false_iff : opensIn name before = .ok false ↔ Ignores name before := by
  rw [Ignores, ← opensIn_eq_ok_true_iff, opensIn]
  by_cases hxpath : name = PseudoClass.xpathName
  · simp [hxpath]
  · by_cases hcontains : name ∈ PseudoClass.containsNames
    · simp [hxpath, hcontains]
    · cases hlast : before.getLast? with
      | none => simp [hxpath, hcontains, show Mark.parenLeft ≠ Mark.slash by decide]
      | some c =>
        by_cases hc : c = Mark.slash
        · simp [hxpath, hcontains, hc]
        · simp [hxpath, hcontains, hc]

theorem closes_iff : closes before = true ↔ ¬ Text.Escapes before := by
  simp [closes, Text.Escapes]

end Regexp

namespace Selector

namespace Argument

/-! ### Reading characters -/

/-- The argument with one more character, as long as it does not end with it. -/
def next (a : Argument) (c : Char) : Option Argument :=
  let keep (a : Argument) : Argument := { a with text := a.text ++ [c] }
  if a.inRegexp then some (keep { a with inRegexp := !(c == Mark.slash && Regexp.closes a.text) })
  else if c = Mark.slash then
    (Regexp.opensIn a.name a.text).toOption.map fun opened => keep { a with inRegexp := opened }
  else if c = Mark.parenLeft then some (keep { a with parenDepth := a.parenDepth + 1 })
  else if c = Mark.parenRight then
    match a.parenDepth with
    | 0 => none
    | depth + 1 => some (keep { a with parenDepth := depth })
  else some (keep a)

/-- The argument with more text. -/
def scan (a : Argument) (w : Text) : Option Argument := w.foldlM next a

theorem scan_nil (a : Argument) : a.scan [] = some a := rfl

theorem scan_cons (a : Argument) (c : Char) (w : Text) : a.scan (c :: w) = (a.next c).bind (·.scan w) :=
  List.foldlM_cons

theorem scan_singleton (a : Argument) (c : Char) : a.scan [c] = a.next c := by
  simp [scan]

theorem scan_append (a : Argument) (v w : Text) : a.scan (v ++ w) = (a.scan v).bind (·.scan w) :=
  List.foldlM_append

theorem next_of_word (a : Argument) {c : Char} (hc : isMark c = false) :
    a.next c = some { a with text := a.text ++ [c] } := by
  have hne : ∀ d, isMark d = true → c ≠ d := by
    rintro d hd rfl
    rw [hc] at hd
    cases hd
  have hslash := hne Mark.slash (by decide)
  have hleft := hne Mark.parenLeft (by decide)
  have hright := hne Mark.parenRight (by decide)
  rw [next]
  split
  · next hregexp => simp [hslash, hregexp]
  · rfl

theorem scan_of_word (a : Argument) {w : Text} (hw : ∀ c ∈ w, isMark c = false) :
    a.scan w = some { a with text := a.text ++ w } := by
  induction w generalizing a with
  | nil => rw [scan_nil, List.append_nil]
  | cons c w ih =>
    rw [scan_cons, next_of_word a (hw c (by simp)), Option.bind_some, ih _ fun d hd => hw d (by simp [hd]),
      List.append_assoc]
    rfl

end Argument

/-! ### What was read is cut -/

namespace Argument

/-- The argument is cut as far as it was read. -/
def Fits (a : Argument) : Prop :=
  if a.inRegexp then
    ∃ w plain body, a.text = w ++ Mark.slash :: body ∧ Regexp.Cut a.name w plain ∧ Regexp.Allows a.name w ∧
      Text.Free (· == Mark.slash) body ∧ Text.Nested a.parenDepth plain
  else ∃ plain, Regexp.Cut a.name a.text plain ∧ Text.Nested a.parenDepth plain

theorem fits_of_regular {a : Argument} (h : a.inRegexp = false) :
    a.Fits ↔ ∃ plain, Regexp.Cut a.name a.text plain ∧ Text.Nested a.parenDepth plain := by
  rw [Fits, h]
  rfl

variable {a b : Argument} {c : Char} {w plain : Text}

theorem Fits.next (h : a.Fits) (hnext : a.next c = some b) :
    b.name = a.name ∧ b.text = a.text ++ [c] ∧ b.Fits := by
  rw [Argument.next] at hnext
  split at hnext
  · next hregexp =>
    rw [Fits, if_pos hregexp] at h
    obtain ⟨w, plain, body, htext, hcut, hallows, hfree, hnested⟩ := h
    cases hnext
    refine ⟨rfl, rfl, ?_⟩
    have hescapes : Regexp.closes a.text = true ↔ ¬ Text.Escapes body := by
      rw [Regexp.closes_iff, htext, Text.escapes_append_cons (by decide)]
    by_cases hclosed : c = Mark.slash ∧ Regexp.closes a.text = true
    · obtain ⟨rfl, hclosed⟩ := hclosed
      rw [fits_of_regular (by simp [hclosed])]
      refine ⟨plain, ?_, hnested⟩
      have hend : a.text ++ [Mark.slash] = w ++ Mark.slash :: (body ++ [Mark.slash]) := by simp [htext]
      show Regexp.Cut a.name (a.text ++ [Mark.slash]) plain
      rw [hend]
      exact .regexp hcut hallows hfree (hescapes.1 hclosed)
    · rw [Fits, if_pos (by simpa [imp_iff_not_or] using hclosed)]
      refine ⟨w, plain, body ++ [c], by simp [htext], hcut, hallows, ?_, hnested⟩
      rw [Text.Free, Text.freeAfter_append]
      refine ⟨hfree, Text.freeAfter_cons.2 ⟨fun hc => ?_, Text.freeAfter_nil⟩⟩
      by_contra hopen
      exact hclosed ⟨by simpa using hc, hescapes.2 hopen⟩
  · next hregexp =>
    rw [fits_of_regular (by simpa using hregexp)] at h
    obtain ⟨plain, hcut, hnested⟩ := h
    split at hnext
    · next hslash =>
      subst hslash
      obtain ⟨opened, hopened, rfl⟩ := Option.map_eq_some_iff.1 hnext
      have hopened := eq_ok_of_toOption hopened
      refine ⟨rfl, rfl, ?_⟩
      cases opened with
      | true =>
        exact ⟨a.text, plain, [], rfl, hcut, Regexp.opensIn_eq_ok_true_iff.1 hopened, Text.freeAfter_nil, hnested⟩
      | false =>
        exact ⟨_, hcut.slash (Regexp.opensIn_eq_ok_false_iff.1 hopened),
          (Text.Nested.other_iff (by decide) (by decide)).2 hnested⟩
    · next hslash =>
      have hcut' := hcut.char hslash
      split at hnext
      · next hleft =>
        subst hleft
        cases hnext
        exact ⟨rfl, rfl, (fits_of_regular (by simpa using hregexp)).2
          ⟨_, hcut', Text.Nested.left_iff.2 ⟨_, hnested, rfl⟩⟩⟩
      · next hleft =>
        split at hnext
        · next hright =>
          subst hright
          split at hnext
          · cases hnext
          · next depth hdepth =>
            cases hnext
            rw [hdepth] at hnested
            exact ⟨rfl, rfl, (fits_of_regular (by simpa using hregexp)).2
              ⟨_, hcut', Text.Nested.right_iff.2 hnested⟩⟩
        · next hright =>
          cases hnext
          exact ⟨rfl, rfl, (fits_of_regular (by simpa using hregexp)).2
            ⟨_, hcut', (Text.Nested.other_iff hleft hright).2 hnested⟩⟩

theorem Fits.scan (h : a.Fits) (hscan : a.scan w = some b) :
    b.name = a.name ∧ b.text = a.text ++ w ∧ b.Fits := by
  induction w generalizing a with
  | nil =>
    cases hscan
    exact ⟨rfl, (List.append_nil _).symm, h⟩
  | cons c w ih =>
    rw [scan_cons] at hscan
    obtain ⟨mid, hnext, hrest⟩ := Option.bind_eq_some_iff.1 hscan
    obtain ⟨hname, htext, hfits⟩ := h.next hnext
    obtain ⟨hname', htext', hfits'⟩ := ih hfits hrest
    exact ⟨hname'.trans hname, by rw [htext', htext, List.append_assoc]; rfl, hfits'⟩

theorem fits_start (name : Text) : Fits { name } := ⟨[], .nil, .nil⟩

/-! ### What is cut can be read -/

theorem next_of_ignored (hregexp : a.inRegexp = false) (h : Regexp.Ignores a.name a.text) :
    a.next Mark.slash = some { a with text := a.text ++ [Mark.slash] } := by
  rw [Argument.next, hregexp, Regexp.opensIn_eq_ok_false_iff.2 h]
  rfl

theorem next_of_allowed (hregexp : a.inRegexp = false) (h : Regexp.Allows a.name a.text) :
    a.next Mark.slash = some { a with text := a.text ++ [Mark.slash], inRegexp := true } := by
  rw [Argument.next, hregexp, Regexp.opensIn_eq_ok_true_iff.2 h]
  rfl

/-- A regular expression is read up to the slash that closes it. -/
theorem scan_of_free (hregexp : a.inRegexp = true) (hopen : ¬ Text.Escapes a.text)
    (hfree : Text.Free (· == Mark.slash) w) : a.scan w = some { a with text := a.text ++ w } := by
  induction w using List.reverseRecOn with
  | nil => rw [scan_nil, List.append_nil]
  | append_singleton w c ih =>
    rw [Text.Free, Text.freeAfter_append] at hfree
    obtain ⟨hfree, hlast⟩ := hfree
    have hkept : (c == Mark.slash && Regexp.closes (a.text ++ w)) = false := by
      by_contra hclosed
      rw [Bool.not_eq_false, Bool.and_eq_true, Regexp.closes_iff, Text.escapes_append hopen] at hclosed
      exact hclosed.2 ((Text.freeAfter_cons.1 hlast).1 hclosed.1)
    rw [scan_append, ih hfree, Option.bind_some, scan_singleton, Argument.next]
    simp [hregexp, hkept]

theorem scan_of_cut {name : Text} {depth : Nat} (h : Regexp.Cut name w plain) (hnested : Text.Nested depth plain) :
    Argument.scan { name } w = some { name, text := w, parenDepth := depth } := by
  induction h generalizing depth with
  | nil =>
    have hdepth := hnested.opened
    obtain rfl : depth = 0 := by simpa using hdepth.symm
    rfl
  | @char w plain c before other ih =>
    by_cases hleft : c = Mark.parenLeft
    · subst hleft
      obtain ⟨outer, houter, rfl⟩ := Text.Nested.left_iff.1 hnested
      rw [scan_append, ih houter]
      rfl
    · by_cases hright : c = Mark.parenRight
      · subst hright
        rw [scan_append, ih (Text.Nested.right_iff.1 hnested)]
        rfl
      · rw [scan_append, ih ((Text.Nested.other_iff hleft hright).1 hnested), Option.bind_some, scan_singleton]
        simp [Argument.next, other, hleft, hright]
  | slash before ignored ih =>
    have hdepth := (Text.Nested.other_iff (by decide) (by decide)).1 hnested
    rw [scan_append, ih hdepth, Option.bind_some, scan_singleton]
    exact next_of_ignored rfl ignored
  | @regexp w plain body before allowed escaped closed ih =>
    have hopen : ¬ Text.Escapes (w ++ [Mark.slash]) := by
      rw [Text.escapes_concat]
      decide
    have hclosed : ¬ Text.Escapes (w ++ [Mark.slash] ++ body) := by rwa [Text.escapes_append hopen]
    have hpieces : w ++ Mark.slash :: (body ++ [Mark.slash]) = w ++ [Mark.slash] ++ body ++ [Mark.slash] := by simp
    rw [hpieces, scan_append, scan_append, scan_append, ih hnested, Option.bind_some, scan_singleton,
      next_of_allowed rfl allowed, Option.bind_some, scan_of_free rfl hopen escaped, Option.bind_some, scan_singleton]
    have hlast := Regexp.closes_iff.2 hclosed
    simp only [Argument.next, hlast]
    rfl

/-- The characters that can be read as an argument are those that are cut. -/
theorem scan_eq_some_iff {name : Text} {depth : Nat} : Argument.scan { name } w =
    some { name, text := w, parenDepth := depth } ↔ ∃ plain, Regexp.Cut name w plain ∧ Text.Nested depth plain :=
  ⟨fun h => ((fits_start name).scan h).2.2, fun ⟨_, hcut, hnested⟩ => scan_of_cut hcut hnested⟩

end Argument

/-! ### Reading tokens of an argument -/

namespace State

variable {config : Config} {input : Input} {s final : State} {a b : Argument} {t : Token} {tokens more : List Token}

/-- A word is kept in the argument wherever it stands. -/
theorem readArgument_of_word (ht : ∀ c ∈ t.text, isMark c = false) :
    s.readArgument input a t = .ok { s with mode := .argument { a with text := a.text ++ t.text } } := by
  have hne : ∀ d, isMark d = true → t.spells d = false := by
    intro d hd
    by_contra hspells
    rw [Bool.not_eq_false, Token.spells_iff] at hspells
    have hword := ht d (by simp [hspells])
    rw [hd] at hword
    cases hword
  rw [readArgument, hne Mark.slash (by decide), hne Mark.parenLeft (by decide), hne Mark.parenRight (by decide)]
  cases hregexp : a.inRegexp <;> simp [hregexp]

theorem keep_eq_keep_iff : (Except.ok { s with mode := .argument a } : Except Fault State) =
    .ok { s with mode := .argument b } ↔ some a = some b := by
  simp

/-- A token of an argument is read character by character. -/
theorem readArgument_eq_ok_iff_scan (ht : t.Proper) :
    s.readArgument input a t = .ok { s with mode := .argument b } ↔ a.scan t.text = some b := by
  cases hword : t.isWord with
  | true => rw [readArgument_of_word (ht.not_mark hword), Argument.scan_of_word a (ht.not_mark hword), keep_eq_keep_iff]
  | false =>
    obtain ⟨c, -, hc⟩ := ht.mark hword
    have hspells : ∀ d, t.spells d = true ↔ c = d := by simp [Token.spells, hc]
    rw [hc, Argument.scan_singleton, readArgument, Argument.next]
    simp only [hspells, hc]
    split
    · have hslash : t.spells Mark.slash = (c == Mark.slash) := by rw [Bool.eq_iff_iff, hspells, beq_iff_eq]
      rw [hslash, keep_eq_keep_iff]
    · split
      · cases Regexp.opensIn a.name a.text with
        | error fault =>
          constructor
          · intro hread
            cases hread
          · intro hscan
            cases hscan
        | ok opened => exact keep_eq_keep_iff
      · split
        · exact keep_eq_keep_iff
        · split
          · cases a.parenDepth with
            | zero =>
              constructor
              · intro hread
                cases congrArg State.mode (closeArgument_eq_ok_iff.1 hread).2
              · intro hscan
                cases hscan
            | succ depth => exact keep_eq_keep_iff
          · exact keep_eq_keep_iff

/-- Reading an argument on, or to its end. -/
theorem readArgument_scan_or_end {next : State} (ht : t.Proper) (h : s.readArgument input a t = .ok next) :
    (∃ b, a.scan t.text = some b ∧ b.text = a.text ++ t.text ∧ next = { s with mode := .argument b }) ∨
      t.text = [Mark.parenRight] ∧ next = s.endArgument a := by
  rcases readArgument_cases h with ⟨b, -, htext, rfl⟩ | ⟨hmark, -, hend⟩
  · exact .inl ⟨b, (readArgument_eq_ok_iff_scan ht).1 h, htext, rfl⟩
  · exact .inr ⟨hmark, hend⟩

/-- The tokens of a text that can be read lead on inside the argument. -/
theorem reaches_of_scan (htokens : ∀ t ∈ tokens, t.Proper) (hmode : s.mode = .argument a)
    (hscan : a.scan (Token.texts tokens) = some b) (h : Reaches config { s with mode := .argument b } more final) :
    Reaches config s (tokens ++ more) final := by
  induction tokens generalizing s a with
  | nil =>
    cases hscan
    rwa [← hmode] at h
  | cons t tokens ih =>
    rw [Token.texts_cons, Argument.scan_append] at hscan
    obtain ⟨mid, hfirst, hrest⟩ := Option.bind_eq_some_iff.1 hscan
    refine .step (.inArgument hmode fun input => (readArgument_eq_ok_iff_scan (htokens t (by simp))).2 hfirst) ?_
    exact ih (fun u hu => htokens u (by simp [hu])) rfl hrest h

/-- A run inside an argument reads its tokens, or the argument ends with a shorter text and is a part of the outermost
list from then on. -/
theorem Reaches.scan_or_end (h : Reaches config s (tokens ++ more) final) (htokens : ∀ t ∈ tokens, t.Proper)
    (hmode : s.mode = .argument a) (houter : s.outer = []) :
    (∃ b, a.scan (Token.texts tokens) = some b ∧ Reaches config { s with mode := .argument b } more final) ∨
      ∃ name text, text.length < (a.text ++ Token.texts tokens).length ∧
        s.trail ++ [.absolute name text] <+: final.trail := by
  induction tokens generalizing s a with
  | nil =>
    refine .inl ⟨a, rfl, ?_⟩
    rwa [← hmode]
  | cons t tokens ih =>
    obtain ⟨next, hread, hrest⟩ := h.of_argument hmode
    have ht := htokens t (by simp)
    have hlength := List.length_pos_iff.2 ht.text_ne_nil
    rcases readArgument_scan_or_end ht hread with ⟨b, hscan, htext, rfl⟩ | ⟨hmark, rfl⟩
    · have htokens' : ∀ u ∈ tokens, u.Proper := fun u hu => htokens u (by simp [hu])
      rcases ih hrest htokens' rfl houter with ⟨b', hscan', hb'⟩ | ⟨name, text, hlt, htrail⟩
      · refine .inl ⟨b', ?_, hb'⟩
        rw [Token.texts_cons, Argument.scan_append, hscan]
        exact hscan'
      · refine .inr ⟨name, text, ?_, htrail⟩
        rwa [Token.texts_cons, ← List.append_assoc, ← htext]
    · refine .inr ⟨a.name, a.text, ?_, ?_⟩
      · rw [Token.texts_cons, List.length_append, List.length_append]
        omega
      · have htrail : (s.endArgument a).trail = s.trail ++ [.absolute a.name a.text] := by
          unfold State.trail
          rw [outer_endArgument, houter]
          exact s.level.trail_push (.absolute a.name a.text)
        rw [← htrail]
        exact hrest.keeps_trail

/-- A closing parenthesis that is not read on ends the argument. -/
theorem next_parenRight_eq_none_iff : a.next Mark.parenRight = none ↔ a.inRegexp = false ∧ a.parenDepth = 0 := by
  have hslash : Mark.parenRight ≠ Mark.slash := by decide
  have hleft : Mark.parenRight ≠ Mark.parenLeft := by decide
  rw [Argument.next]
  cases hregexp : a.inRegexp <;> cases hdepth : a.parenDepth <;> simp [hslash, hleft]

theorem readArgument_end_iff {next : State} (ht : t.Proper) (hmark : t.text = [Mark.parenRight])
    (hremove : a.name ≠ PseudoClass.removeName) :
    s.readArgument input a t = .ok next ∧ next.mode = .regular ↔
      a.inRegexp = false ∧ a.parenDepth = 0 ∧ a.text ≠ [] ∧ next = s.endArgument a := by
  constructor
  · rintro ⟨hread, hmode⟩
    rcases readArgument_cases hread with ⟨b, -, -, rfl⟩ | ⟨-, hempty, hend⟩
    · cases hmode
    · have hnone : a.next Mark.parenRight = none := by
        by_contra hsome
        obtain ⟨b, hb⟩ := Option.ne_none_iff_exists'.1 hsome
        rw [← Argument.scan_singleton, ← hmark, ← readArgument_eq_ok_iff_scan ht, hread] at hb
        cases hb
        cases hmode
      obtain ⟨hregexp, hdepth⟩ := next_parenRight_eq_none_iff.1 hnone
      exact ⟨hregexp, hdepth, fun htext => hremove (hempty.2 htext), hend⟩
  · rintro ⟨hregexp, hdepth, htext, rfl⟩
    have hspells : ∀ d, t.spells d = (Mark.parenRight == d) := by
      intro d
      simp [Token.spells, hmark, Bool.beq_eq_decide_eq]
    refine ⟨?_, rfl⟩
    rw [readArgument, hregexp, hdepth, hspells, hspells, hspells]
    exact closeArgument_eq_ok_iff.2 ⟨iff_of_false hremove htext, rfl⟩

/-- Where a run up to a closing parenthesis adds its tokens before the parenthesis as an argument, they are cut. -/
theorem Reaches.cut_of_argument {name : Text} (h : Reaches config s (tokens ++ [t]) final)
    (htokens : ∀ u ∈ tokens, u.Proper) (ht : t.Proper) (hmark : t.text = [Mark.parenRight])
    (hmode : s.mode = .argument { name }) (houter : s.outer = []) (hremove : name ≠ PseudoClass.removeName)
    (hfinal : final.mode = .regular) (htrail : final.trail <+: s.trail ++ [.absolute name (Token.texts tokens)]) :
    Token.texts tokens ≠ [] ∧ ∃ plain, Regexp.Cut name (Token.texts tokens) plain ∧ Text.Nested 0 plain := by
  rcases h.scan_or_end htokens hmode houter with ⟨b, hscan, hend⟩ | ⟨name', text, hlt, hearly⟩
  · obtain ⟨hbname, hbtext, hfits⟩ := (Argument.fits_start name).scan hscan
    obtain ⟨next, hread, hrest⟩ := hend.of_argument rfl
    cases hrest
    obtain ⟨hregexp, hdepth, hne, -⟩ := (readArgument_end_iff ht hmark (hbname ▸ hremove)).1 ⟨hread, hfinal⟩
    rw [Argument.fits_of_regular hregexp, hbname, hbtext, hdepth] at hfits
    rw [hbtext] at hne
    exact ⟨hne, hfits⟩
  · -- an argument that ends before would be another part
    have hparts := hearly.trans htrail
    have hequal := hparts.eq_of_length (by simp)
    cases (List.append_singleton_inj.1 hequal).2
    exact absurd hlt (Nat.lt_irrefl _)

/-- A text that is cut is read up to the parenthesis that ends the argument. -/
theorem reaches_of_cut {name plain : Text} (htokens : ∀ u ∈ tokens, u.Proper) (ht : t.Proper)
    (hmark : t.text = [Mark.parenRight]) (hmode : s.mode = .argument { name })
    (hremove : name ≠ PseudoClass.removeName) (hne : Token.texts tokens ≠ [])
    (hcut : Regexp.Cut name (Token.texts tokens) plain) (hnested : Text.Nested 0 plain) :
    Reaches config s (tokens ++ [t]) (s.endArgument { name, text := Token.texts tokens }) := by
  refine reaches_of_scan htokens hmode (Argument.scan_of_cut hcut hnested) ?_
  refine .step (.inArgument rfl fun input => ?_) (.refl _)
  exact ((readArgument_end_iff ht hmark hremove).2 ⟨rfl, rfl, hne, rfl⟩).1

end State

end Selector

/-! ### The text of an argument -/

theorem PseudoClass.kind?_absolute : ∀ name ∈ PseudoClass.absoluteNames,
    name ∈ PseudoClass.supportedNames ∧ PseudoClass.kind? name = some .absolute := by decide

namespace SelectorList

open Selector

variable {config : Config} {name w : Text} {final : State}

/-- Reading the word and the start of the pseudo-class leads into its argument. -/
theorem reaches_absolute_iff {k : Nat} {tokens : List Token} (hname : name ∈ PseudoClass.absoluteNames)
    (hremove : name ≠ PseudoClass.removeName) :
    State.Reaches config .start (⟨.word, ['x'], 0⟩ :: ⟨.mark, [Mark.colon], 1⟩ :: ⟨.word, name, 2⟩ ::
      ⟨.mark, [Mark.parenLeft], k⟩ :: tokens) final ↔
    State.Reaches config ((State.start.write ['x']).openArgument name) tokens final := by
  obtain ⟨hsupported, hkind⟩ := PseudoClass.kind?_absolute name hname
  obtain ⟨-, -, hlower⟩ := PseudoClass.supportedNames_spec name hsupported
  have hopens : (State.start.write ['x']).Opens (⟨.word, name, 2⟩ :: ⟨.mark, [Mark.parenLeft], k⟩ :: tokens) name
      .absolute := by
    refine ⟨?_, rfl, rfl, nofun, fun _ => rfl⟩
    show (PseudoClass.kind? (Text.lower name)).map _ = _
    rw [hlower, hkind]
    rfl
  have hcolon : State.Move config (State.start.write ['x']) ⟨.mark, [Mark.colon], 1⟩
      (⟨.word, name, 2⟩ :: ⟨.mark, [Mark.parenLeft], k⟩ :: tokens) _ :=
    .openAbsolute rfl rfl rfl hopens fun h => absurd h hremove
  exact ⟨fun h => (h.of_move (move_word _)).of_move hcolon, fun h => .step (move_word _) (.step hcolon h)⟩

/-- Between the parentheses of an absolute pseudo-class, a text is the argument as it stands if and only if it is not
empty and the parentheses outside its regular expressions are matched. -/
theorem parse_verbatim_iff (hname : name ∈ PseudoClass.absoluteNames) (hremove : name ≠ PseudoClass.removeName) :
    parse config ('x' :: Mark.colon :: (name ++ Mark.parenLeft :: (w ++ [Mark.parenRight]))) =
        .ok [[.regular ['x'], .absolute name w]] ↔
      w ≠ [] ∧ ∃ plain, Regexp.Cut name w plain ∧ Text.Nested 0 plain := by
  obtain ⟨k, p, r, htokens⟩ := scan_callOfWord (PseudoClass.kind?_absolute name hname).1 w
  have htexts : Token.texts (Token.scanFrom p w) = w := Token.texts_scanFrom p w
  have hproper : ∀ t ∈ Token.scanFrom p w, t.Proper := (Token.scanned_scanFrom p w).proper
  have hparen : Token.Proper ⟨.mark, [Mark.parenRight], r⟩ := Token.proper_mark r rfl
  show parse config (callOfWord name w) = _ ↔ _
  rw [parse_eq_compile, compile_eq_ok_iff, trimSpace_callOfWord, htokens]
  constructor
  · rintro ⟨-, final, hrun, hmode, houter, -, hlist⟩
    have hinside := (reaches_absolute_iff hname hremove).1 (State.reaches_of_run hrun)
    have htrail : final.trail <+: [.regular ['x'], .absolute name w] := by
      have hstart := final.level.trail_selectors
      rw [← hlist] at hstart
      rw [State.trail, houter]
      exact hstart
    rw [← htexts] at htrail ⊢
    exact hinside.cut_of_argument hproper hparen rfl rfl rfl hremove hmode htrail
  · rintro ⟨hne, plain, hcut, hnested⟩
    rw [← htexts] at hne hcut
    have hinside : State.Reaches config ((State.start.write ['x']).openArgument name) _ _ :=
      State.reaches_of_cut hproper hparen rfl rfl hremove hne hcut hnested
    refine ⟨List.cons_ne_nil _ _, _, ((reaches_absolute_iff hname hremove).2 hinside).run_eq, rfl, rfl, rfl, ?_⟩
    rw [htexts]
    rfl

theorem parse_verbatim_iff_pattern :
    "matches-css".toList ∈ PseudoClass.absoluteNames ∧ "matches-css".toList ≠ PseudoClass.removeName ∧
      parse .standard ('x' :: Mark.colon :: ("matches-css".toList ++ Mark.parenLeft ::
          ("(/[)\\/](/,:has(\"b\"))".toList ++ [Mark.parenRight]))) =
        .ok [[.regular ['x'], .absolute "matches-css".toList "(/[)\\/](/,:has(\"b\"))".toList]] ∧
      ∃ plain, Regexp.Cut "matches-css".toList "(/[)\\/](/,:has(\"b\"))".toList plain ∧ Text.Nested 0 plain := by
  have hname : "matches-css".toList ∈ PseudoClass.absoluteNames := by decide
  have hremove : "matches-css".toList ≠ PseudoClass.removeName := by decide
  have h : parse .standard ('x' :: Mark.colon :: ("matches-css".toList ++ Mark.parenLeft ::
        ("(/[)\\/](/,:has(\"b\"))".toList ++ [Mark.parenRight]))) =
      .ok [[.regular ['x'], .absolute "matches-css".toList "(/[)\\/](/,:has(\"b\"))".toList]] :=
    (parse_eq_compile _ _).trans (eq_ok_of_toOption (by decide +kernel))
  exact ⟨hname, hremove, h, ((parse_verbatim_iff hname hremove).1 h).2⟩

end SelectorList

end CosmeticFilter
