import CosmeticFilter.Proofs.Verbatim
import Mathlib.Algebra.Ring.Parity

/-!
# Slashes in regular expressions

Inside a regular expression a slash is kept as long as a backslash stands directly before it. In the notation of
regular expressions a backslash is escaped by another one, so that only an odd number of backslashes escapes the slash
after them; the compiler looks at the last backslash alone. `SelectorList.parse_pattern` says what this makes of a
pattern between slashes whose own slashes are all escaped: it is the argument as it stands if it does not end in a
backslash. If it does, its closing slash is taken for a part of it, however many backslashes stand there, and the
pattern is refused for being open (`pattern_left_open`).
-/

namespace CosmeticFilter

namespace Text

/-- How many backslashes the text ends in. -/
def backslashes (t : Text) : Nat := (t.reverse.takeWhile (· = Mark.backslash)).length

variable {t : Text}

theorem backslashes_pos_iff : 0 < backslashes t ↔ Escapes t := by
  rw [backslashes, Escapes, ← List.head?_reverse]
  cases t.reverse with
  | nil => simp
  | cons c rest => by_cases hc : c = Mark.backslash <;> simp [hc]

theorem backslashes_eq_zero_iff : backslashes t = 0 ↔ ¬ Escapes t := by
  rw [← backslashes_pos_iff]
  omega

end Text

namespace Selector

open Text (Escapes Free)

namespace Argument

variable {name r : Text}

/-- A pattern at the start of an argument is read to the slash after it, which closes it unless it is escaped. -/
theorem scan_pattern (hallows : Regexp.Allows name []) (hfree : Free (· == Mark.slash) r) :
    Argument.scan { name } (Mark.slash :: (r ++ [Mark.slash])) =
      some { name, text := Mark.slash :: (r ++ [Mark.slash]), inRegexp := decide (Escapes r) } := by
  have hopen : Argument.next { name } Mark.slash = some { name, text := [Mark.slash], inRegexp := true } :=
    next_of_allowed rfl hallows
  have hslash : ¬ Escapes [Mark.slash] := by decide
  have hbody : Argument.scan { name, text := [Mark.slash], inRegexp := true } r =
      some { name, text := Mark.slash :: r, inRegexp := true } := scan_of_free rfl hslash hfree
  have hcloses : Regexp.closes (Mark.slash :: r) = !decide (Escapes r) := by
    rw [Bool.eq_iff_iff, Regexp.closes_iff, ← List.nil_append (Mark.slash :: r),
      Text.escapes_append_cons (by decide)]
    simp
  rw [scan_cons, hopen, Option.bind_some, scan_append, hbody, Option.bind_some, scan_singleton, Argument.next]
  simp [hcloses]

theorem next_parenRight_of_open {a : Argument} (hregexp : a.inRegexp = true) :
    a.next Mark.parenRight = some { a with text := a.text ++ [Mark.parenRight] } := by
  have hslash : (Mark.parenRight == Mark.slash) = false := rfl
  rw [Argument.next, if_pos hregexp, hslash, hregexp]
  rfl

end Argument

namespace State

variable {config : Config} {name argument plain : Text} {a : Argument} {s : State}

/-- An argument that is cut ends with the parenthesis after it. -/
theorem reaches_argument_of_cut {p q : Nat} (hremove : name ≠ PseudoClass.removeName) (hne : argument ≠ [])
    (hcut : Regexp.Cut name argument plain) (hnested : Text.Nested 0 plain) :
    Reaches config (s.openArgument name) (Token.scanFrom p argument ++ [⟨.mark, [Mark.parenRight], q⟩])
      ((s.openArgument name).endArgument { name, text := argument }) := by
  have htexts : Token.texts (Token.scanFrom p argument) = argument := Token.texts_scanFrom p argument
  rw [← htexts] at hne hcut
  have h : Reaches config (s.openArgument name) _ _ :=
    reaches_of_cut (Token.scanned_scanFrom p argument).proper (Token.proper_mark q rfl) rfl rfl hremove hne hcut hnested
  rwa [htexts] at h

theorem reaches_argument_of_scan {p q : Nat} (hscan : Argument.scan { name } (argument ++ [Mark.parenRight]) = some a) :
    Reaches config (s.openArgument name) (Token.scanFrom p argument ++ [⟨.mark, [Mark.parenRight], q⟩])
      { s.openArgument name with mode := .argument a } := by
  have hproper : ∀ t ∈ Token.scanFrom p argument ++ [⟨.mark, [Mark.parenRight], q⟩], t.Proper := by
    intro t ht
    rcases List.mem_append.1 ht with ht | ht
    · exact (Token.scanned_scanFrom p argument).proper t ht
    · rw [List.mem_singleton.1 ht]
      exact Token.proper_mark q rfl
  have htexts : Token.texts (Token.scanFrom p argument ++ [⟨.mark, [Mark.parenRight], q⟩]) =
      argument ++ [Mark.parenRight] := by
    rw [Token.texts_append, Token.texts_scanFrom]
    rfl
  rw [← htexts] at hscan
  simpa using reaches_of_scan hproper (mode_openArgument s name) hscan (.refl _)

end State

end Selector

namespace SelectorList

open Selector
open Text (backslashes)

variable {config : Config} {name argument r : Text} {final : State}

/-- What the argument of a pseudo-class after a word leads to decides about the whole text. -/
theorem parse_callOfWord_eq (hname : name ∈ PseudoClass.absoluteNames) (hremove : name ≠ PseudoClass.removeName)
    (h : ∀ p q, State.Reaches config ((State.start.write ['x']).openArgument name)
      (Token.scanFrom p argument ++ [⟨.mark, [Mark.parenRight], q⟩]) final) :
    parse config (callOfWord name argument) = final.finish ⟨callOfWord name argument, config⟩ := by
  obtain ⟨k, p, q, htokens⟩ := scan_callOfWord (PseudoClass.kind?_absolute name hname).1 argument
  have hreaches := (reaches_absolute_iff (k := k) hname hremove).2 (h p q)
  rw [← htokens, ← trimSpace_callOfWord] at hreaches
  rw [parse_eq_compile, compile_of_run _ hreaches.run_eq, trimSpace_callOfWord]
  rw [trimSpace_callOfWord]
  exact List.cons_ne_nil _ _

/-- A pattern between slashes whose own slashes all stand directly after backslashes is the argument as it stands if
it does not end in a backslash. If it does, its closing slash is taken for a part of it, and it is refused for being
open. -/
theorem parse_pattern (config : Config)
    (hslashes : ∀ before after, r = before ++ Mark.slash :: after → 0 < backslashes before) :
    parse config ("x:contains(/".toList ++ r ++ "/)".toList) =
      if backslashes r = 0 then
        .ok [[.regular ['x'], .absolute "contains".toList (Mark.slash :: (r ++ [Mark.slash]))]]
      else
        .error (.malformed (.unclosedRegexp "contains".toList
          (Mark.slash :: (r ++ [Mark.slash, Mark.parenRight])))) := by
  have htext : "x:contains(/".toList ++ r ++ "/)".toList =
      callOfWord "contains".toList (Mark.slash :: (r ++ [Mark.slash])) := by
    simp [callOfWord]
  have hfree : Text.Free (· == Mark.slash) r := by
    intro before c after heq hc
    obtain rfl : c = Mark.slash := by simpa using hc
    exact Text.backslashes_pos_iff.1 (hslashes before after heq)
  have hallows : Regexp.Allows "contains".toList [] := ⟨by decide, by simp [PseudoClass.containsNames]⟩
  have hname : "contains".toList ∈ PseudoClass.absoluteNames := by decide
  have hremove : "contains".toList ≠ PseudoClass.removeName := by decide
  rw [htext]
  split
  · next hend =>
    have hcut : Regexp.Cut "contains".toList (Mark.slash :: (r ++ [Mark.slash])) [] :=
      .regexp .nil hallows hfree (Text.backslashes_eq_zero_iff.1 hend)
    rw [parse_callOfWord_eq hname hremove fun p q =>
      State.reaches_argument_of_cut hremove (List.cons_ne_nil _ _) hcut .nil]
    exact State.finish_eq_ok_iff.2 ⟨rfl, rfl, rfl, rfl⟩
  · next hend =>
    have hopen : Argument.scan { name := "contains".toList } (Mark.slash :: (r ++ [Mark.slash]) ++ [Mark.parenRight]) =
        some { name := "contains".toList, text := Mark.slash :: (r ++ [Mark.slash, Mark.parenRight])
               inRegexp := true } := by
      rw [Argument.scan_append, Argument.scan_pattern hallows hfree, Option.bind_some, Argument.scan_singleton,
        Argument.next_parenRight_of_open (by simpa [Text.backslashes_eq_zero_iff] using hend)]
      simpa [Text.backslashes_eq_zero_iff] using hend
    rw [parse_callOfWord_eq hname hremove fun p q => State.reaches_argument_of_scan hopen]
    rfl

theorem parse_pattern_escaped :
    (∀ before after, "[)\\/]\\\\\\/,".toList = before ++ Mark.slash :: after → 0 < backslashes before) ∧
      parse .standard ("x:contains(/".toList ++ "[)\\/]\\\\\\/,".toList ++ "/)".toList) =
        .ok [[.regular ['x'], .absolute "contains".toList "/[)\\/]\\\\\\/,/".toList]] := by
  have hslashes : ∀ before after, "[)\\/]\\\\\\/,".toList = before ++ Mark.slash :: after → 0 < backslashes before := by
    intro before after heq
    have hfree : Text.Free (· == Mark.slash) "[)\\/]\\\\\\/,".toList := Text.cutUnescaped?_eq_none_iff.1 (by decide)
    exact Text.backslashes_pos_iff.2 (hfree before Mark.slash after heq rfl)
  exact ⟨hslashes, parse_pattern .standard hslashes⟩

/-- A pattern that ends in an escaped backslash is refused. -/
theorem pattern_left_open :
    (∀ before after, "a\\\\".toList = before ++ Mark.slash :: after → Odd (backslashes before)) ∧
      Even (backslashes "a\\\\".toList) ∧
      parse .standard ("x:contains(/".toList ++ "a\\\\".toList ++ "/)".toList) =
        .error (.malformed (.unclosedRegexp "contains".toList "/a\\\\/)".toList)) := by
  refine ⟨fun before after heq => ?_, by decide, ?_⟩
  · have hmem : Mark.slash ∈ "a\\\\".toList := by simp [heq]
    exact absurd hmem (by decide)
  · rw [parse_eq_compile]
    rfl

end SelectorList

end CosmeticFilter
