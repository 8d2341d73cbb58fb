import CosmeticFilter.Proofs.Replay
import CosmeticFilter.Proofs.Validity

/-!
# The text of a list is its canonical form

Compiling the text of a compiled list gives the list again (`parse_text_of_parse`). The tokens that the first
run writes are those of the text, and a run over them ends in the same state (`Replay`). The text has no white
space at its ends, by the shape of the list.

A text that starts with any element and a class that could match the root compiles as if it started with
the class, so that no run needs to be considered that rewrites what is written already.
-/

namespace CosmeticFilter

/-! ### White space at the ends -/

theorem Part.Complete.getLast?_text {part : Part} (h : part.Complete) :
    ∃ c, part.text.getLast? = some c ∧ Text.isSpace c = false := by
  cases part with
  | regular text => exact h
  | absolute name argument =>
    refine ⟨')', ?_, rfl⟩
    rw [Part.text, List.getLast?_concat]
  | relative name argument =>
    refine ⟨')', ?_, rfl⟩
    rw [Part.text, List.getLast?_concat]

namespace Selector.Shaped

variable {selector : Selector}

theorem head?_text (h : Selector.Shaped selector) :
    ∃ c, (Selector.text selector).head? = some c ∧ Text.isSpace c = false := by
  obtain ⟨text, more, rfl, hhead⟩ := h.starts
  obtain ⟨d, hd, -⟩ := h.complete (.regular text) (by simp)
  cases text with
  | nil => cases hd
  | cons c text => exact ⟨c, rfl, hhead c rfl⟩

theorem getLast?_text (h : Selector.Shaped selector) :
    ∃ c, (Selector.text selector).getLast? = some c ∧ Text.isSpace c = false := by
  obtain ⟨text, more, hstarts, -⟩ := h.starts
  have hne : selector ≠ [] := by simp [hstarts]
  obtain ⟨c, hc, hspace⟩ := (h.complete _ (List.getLast_mem hne)).getLast?_text
  refine ⟨c, ?_, hspace⟩
  have hsplit := List.dropLast_concat_getLast hne
  rw [← hsplit, Selector.text, Part.selectorText_append]
  simp [Part.selectorText, hc]

end Selector.Shaped

namespace SelectorList

theorem text_cons (first : Selector) (others : SelectorList) :
    ∃ more, text (first :: others) = Selector.text first ++ more := by
  cases others with
  | nil => exact ⟨[], by simp [text, Text.join, Part.selectorTexts, Selector.text]⟩
  | cons second others =>
    rw [text, Text.join, Part.selectorTexts, List.intercalate_cons_of_ne_nil (by simp [Part.selectorTexts])]
    exact ⟨_, List.append_assoc _ _ _⟩

/-- The text of a well shaped list is not empty and has no white space at its ends. -/
theorem trimSpace_text {list : SelectorList} (h : list.Everywhere (fun _ => Selector.Shaped) []) :
    Text.trimSpace list.text = list.text ∧ list.text ≠ [] := by
  obtain ⟨hne, hselectors⟩ := everywhere_iff.1 h
  have hhead : ∃ c, list.text.head? = some c ∧ Text.isSpace c = false := by
    cases list with
    | nil => exact absurd rfl hne
    | cons first others =>
      obtain ⟨more, hmore⟩ := text_cons first others
      obtain ⟨c, hc, hspace⟩ := (hselectors first (by simp)).1.head?_text
      exact ⟨c, by rw [hmore, List.head?_append, hc]; rfl, hspace⟩
  have hlast : ∃ c, list.text.getLast? = some c ∧ Text.isSpace c = false := by
    obtain ⟨c, hc, hspace⟩ := (hselectors _ (List.getLast_mem hne)).1.getLast?_text
    refine ⟨c, ?_, hspace⟩
    rw [← List.dropLast_concat_getLast hne, text_concat, List.getLast?_append, hc]
    rfl
  obtain ⟨c, hc, hcspace⟩ := hhead
  obtain ⟨d, hd, hdspace⟩ := hlast
  refine ⟨Text.trim_eq_self ?_ ?_, fun hnil => by simp [hnil] at hc⟩
  · intro x hx
    rw [hc, Option.some.injEq] at hx
    rw [← hx, hcspace]
  · intro x hx
    rw [hd, Option.some.injEq] at hx
    rw [← hx, hdspace]

end SelectorList

namespace Selector.State

variable {config : Config} {s final : State}

/-! ### The start of the input -/

theorem Move.unique {t : Token} {rest : List Token} {a b : Step} (ha : Move config s t rest a)
    (hb : Move config s t rest b) : a = b := by
  have ha : s.step ⟨[], config⟩ t rest = .ok a := step_eq_ok_iff.2 ha
  have hb : s.step ⟨[], config⟩ t rest = .ok b := step_eq_ok_iff.2 hb
  exact Except.ok.inj (ha.symm.trans hb)

theorem Reaches.of_move {t : Token} {rest : List Token} {next : Step} (h : Reaches config s (t :: rest) final)
    (hmove : Move config s t rest next) : Reaches config next.state (rest.drop next.skip) final := by
  cases h with
  | step hmove' h => rwa [hmove.unique hmove']

theorem kind?_of_mem_rootMatching :
    ∀ name ∈ PseudoClass.rootMatching, PseudoClass.kind? name = some .relative := by decide

/-- A relative pseudo-class can be opened wherever no argument is open. -/
theorem move_openOutermost {colon word paren : Token} {more : List Token} (hmode : s.mode = .regular)
    (houter : s.outer = []) (hdepth : s.frame.parenDepth = 0) (hremoved : s.frame.removed = false)
    (hflag : s.frame.afterPseudoElement = false) (hcolon : colon.text = [Mark.colon])
    (hword : word.isWord = true) (hkind : PseudoClass.kind? (Text.lower word.text) = some .relative)
    (hparen : paren.text = [Mark.parenLeft]) :
    Move config s colon (word :: paren :: more) { state := s.suspend (Text.lower word.text), skip := 2 } := by
  refine .openRelative hmode hcolon hremoved ⟨?_, hdepth, Token.spells_iff.2 hparen, ?_, fun _ => hflag⟩ ?_
  · rw [extendedName?, if_pos hword]
    simp only [hkind, Option.map_some]
  · simp [State.openNames, houter]
  · rw [State.depth, houter]
    exact config.maxDepth_pos

/-- Any element before a class that could match the root makes no difference. -/
theorem reaches_of_star {star : Token} {tokens : List Token} (hstar : star.text = PseudoClass.anyElement)
    (htokens : OpensRoot tokens) (h : Reaches config State.start (star :: tokens) final) :
    Reaches config State.start tokens final := by
  obtain ⟨colon, word, paren, more, rfl, hcolon, hword, hname, hparen⟩ := htokens
  have hafter := h.of_move (move_star rfl rfl hstar)
  have hkind := kind?_of_mem_rootMatching _ hname
  have hopened := hafter.of_move (move_openOutermost rfl rfl rfl rfl rfl hcolon hword hkind hparen)
  refine .step (move_openOutermost rfl rfl rfl rfl rfl hcolon hword hkind hparen) ?_
  have hanchor : (State.start.frame.write PseudoClass.anyElement).anchor (Text.lower word.text) =
      State.start.frame.anchor (Text.lower word.text) := by
    simp [Frame.anchor, Frame.anchorText, State.start, State.frame, Frame.write, hname]
  rw [← suspend_write hanchor]
  exact hopened

/-- A run can be taken to start with another token than any element before such a class. -/
theorem exists_unstarred {tokens : List Token} (h : Reaches config State.start tokens final)
    (hscanned : Token.Scanned tokens)
    (hspace : ∀ t, tokens.head? = some t → t.isOf Text.isSpace = false) :
    ∃ tokens', Reaches config State.start tokens' final ∧ Token.Scanned tokens' ∧
      State.start.Unstarred tokens' := by
  by_cases hstar : ∃ star more, tokens = star :: more ∧ star.text = PseudoClass.anyElement ∧ OpensRoot more
  · obtain ⟨star, more, rfl, htext, hopens⟩ := hstar
    refine ⟨more, reaches_of_star htext hopens h, hscanned.tail, ?_, nofun⟩
    obtain ⟨colon, word, paren, rest, rfl, hcolon, -⟩ := hopens
    rintro - - - - t more' heq
    cases heq
    refine ⟨by rw [Token.isOf, hcolon]; rfl, fun hstar => ?_⟩
    rw [hcolon] at hstar
    cases hstar
  · refine ⟨tokens, h, hscanned, ?_, nofun⟩
    rintro - - - - t more rfl
    exact ⟨hspace t rfl, fun htext hopens => hstar ⟨t, more, rfl, htext, hopens⟩⟩

end Selector.State

/-! ### Compiling the text of a list -/

namespace SelectorList

open Selector

theorem head?_scan_trimSpace {text : Text} {t : Token} (h : (Token.scan (Text.trimSpace text)).head? = some t) :
    t.isOf Text.isSpace = false := by
  by_contra hspace
  obtain ⟨c, hc, hspace⟩ := Token.isOf_iff.1 (by simpa using hspace)
  obtain ⟨more, hmore⟩ := List.head?_eq_some_iff.1 h
  have htexts := Token.texts_scan (Text.trimSpace text)
  rw [hmore, Token.texts_cons, hc] at htexts
  have hhead : (Text.trimSpace text).head? = some c := by rw [← htexts]; rfl
  rw [Text.head?_trim hhead] at hspace
  cases hspace

theorem compile_text {config : Config} {text : Text} {list : SelectorList} (h : compile config text = .ok list) :
    compile config list.text = .ok list := by
  obtain ⟨htrim, hne⟩ := trimSpace_text (shaped_of_compile h).1
  obtain ⟨-, final, hrun, hmode, houter, hregular, hlist⟩ := compile_eq_ok_iff.1 h
  have hreaches : State.Reaches config State.start (Token.scan (Text.trimSpace text)) final :=
    State.reaches_of_run hrun
  obtain ⟨tokens, htokens, hscanned, hunstarred⟩ :=
    State.exists_unstarred hreaches (Token.scanned_scan _) fun t ht => head?_scan_trimSpace ht
  obtain ⟨written, hwritten⟩ := htokens.replay .start hscanned hunstarred
  -- the tokens that are written are those of the text of the list
  have hfinal : final.text = list.text := by
    rw [hlist, Level.selectors, text_concat, State.text, houter, hmode]
    simp [stackText, Level.text, Mode.text, Selector.text, Frame.selectorText_allParts]
  have htexts : Token.texts written = list.text := by
    rw [← hfinal, ← hwritten.text]
    rfl
  have hscan : Token.scan list.text = Token.placed 0 written := by
    rw [← htexts, Token.scan_texts hwritten.scanned]
  refine compile_eq_ok_iff.2 ⟨by rwa [htrim], final, ?_, hmode, houter, hregular, hlist⟩
  rw [htrim, hscan]
  exact State.Reaches.run_eq (hwritten.reaches.placed 0)

/-- The text of a list that is returned compiles to the list itself, under the same limits. -/
theorem parse_text_of_parse {config : Config} {text : Text} {list : SelectorList}
    (h : parse config text = .ok list) : parse config list.text = .ok list := by
  rw [parse_eq_compile] at h ⊢
  exact compile_text h

theorem parse_text_of_parse_rooted :
    ∃ list, parse .standard ":IS( > :contains(/a)/) ) , :hover".toList = .ok list ∧
      list.text = "html *:is(> *:contains(/a)/)),*:hover".toList ∧ parse .standard list.text = .ok list := by
  have h : parse .standard ":IS( > :contains(/a)/) ) , :hover".toList =
      .ok [[.regular "html *".toList, .relative "is".toList
          [[.regular "> *".toList, .absolute "contains".toList "/a)/".toList]]], [.regular "*:hover".toList]] :=
    (parse_eq_compile _ _).trans (eq_ok_of_toOption (by decide +kernel))
  exact ⟨_, h, by decide +kernel, parse_text_of_parse h⟩

end SelectorList

end CosmeticFilter
