import CosmeticFilter.Proofs.Shape
import CosmeticFilter.Selector.Writer
import Mathlib.Data.List.TakeWhile

/-!
# Replaying a run

A run writes tokens: those that it copies, the anchors that it inserts, and the names of pseudo-classes in
lower case, but not the white space that it drops. `Reaches.replay` shows that a second run over the tokens
that were written goes through the same states: from a state from which the tokens ahead lead to `final`,
the tokens that are written on the way lead to `final` too.

The induction goes from the end of the run to its start, because a step sees the tokens after its own, and
the tokens that are written there need not be those that were read. `LookAhead` says how they differ: white
space is dropped only before a token that does not continue a part, and a colon gets any element before it
only where the text does not end in a compound selector. What a step asks about the tokens ahead has the
same answer for both.

One text is not replayed literally. After any element at the start of the input, a class that could match
the root moves the text that is already written below the root. `Unstarred` excludes this start; it is left
to the caller.
-/

namespace CosmeticFilter.Selector

namespace State

/-! ### Runs as a relation -/

/-- Reading `tokens` leads from one state to another. -/
inductive Reaches (config : Config) : State → List Token → State → Prop
  | refl (s : State) : Reaches config s [] s
  | step {s final : State} {t : Token} {rest : List Token} {next : Step} (hmove : Move config s t rest next)
      (h : Reaches config next.state (rest.drop next.skip) final) : Reaches config s (t :: rest) final

theorem reaches_of_run {input : Input} {s final : State} {skip : Nat} {tokens : List Token}
    (h : s.run input skip tokens = .ok final) : Reaches input.config s (tokens.drop skip) final := by
  induction tokens generalizing s skip with
  | nil =>
    rw [run] at h
    cases h
    simpa using Reaches.refl final
  | cons t rest ih =>
    cases skip with
    | succ skip =>
      rw [run] at h
      exact ih h
    | zero =>
      rw [run] at h
      split at h
      · cases h
      · next next hstep => exact .step (step_eq_ok_iff.1 hstep) (ih h)

theorem Reaches.run_eq {input : Input} {s final : State} {tokens : List Token}
    (h : Reaches input.config s tokens final) : s.run input 0 tokens = .ok final := by
  induction h with
  | refl s => rfl
  | step hmove h ih => rw [run_cons_of_step (step_eq_ok_iff.2 hmove), run_eq_drop, ih]

/-! ### Positions do not matter -/

theorem extendedName?_placed (position : Nat) (tokens : List Token) :
    extendedName? (Token.placed position tokens) = extendedName? tokens := by
  cases tokens <;> rfl

theorem opensArgument_placed (position : Nat) (tokens : List Token) :
    opensArgument (Token.placed position tokens) = opensArgument tokens := by
  match tokens with
  | [] => rfl
  | [_] => rfl
  | _ :: _ :: _ => rfl

theorem startsWithColon_placed (position : Nat) (tokens : List Token) :
    startsWithColon (Token.placed position tokens) = startsWithColon tokens := by
  cases tokens <;> rfl

theorem continuesAfterSpace_placed (position : Nat) (tokens : List Token) :
    Token.continuesAfterSpace (Token.placed position tokens).head? = Token.continuesAfterSpace tokens.head? := by
  cases tokens <;> rfl

theorem Opens.placed_tokens {s : State} {rest : List Token} {name : Text} {kind : PseudoClass.Kind}
    (position : Nat) (h : s.Opens rest name kind) : s.Opens (Token.placed position rest) name kind := by
  refine ⟨?_, h.depth, ?_, h.allowed, h.placed⟩
  · rw [extendedName?_placed, h.named]
  · rw [opensArgument_placed, h.argument]

theorem Move.placed {config : Config} {s : State} {t : Token} {rest : List Token} {next : Step} (p q : Nat)
    (h : Move config s t rest next) : Move config s { t with position := p } (Token.placed q rest) next := by
  cases h with
  | inAttribute mode read => exact .inAttribute mode read
  | inArgument mode read => exact .inArgument mode read
  | comma mode mark depth regular => exact .comma mode mark depth regular
  | close mode mark depth removed stack regular => exact .close mode mark depth removed stack regular
  | colon mode mark removed plain =>
    have hcopy : s.copyColon (Token.placed q rest) = s.copyColon rest := by
      rw [copyColon, copyColon, startsWithColon_placed]
    rw [← hcopy]
    exact .colon mode mark removed (by rwa [extendedName?_placed])
  | openRelative mode mark removed opens limit =>
    exact .openRelative mode mark removed (opens.placed_tokens q) limit
  | openAbsolute mode mark removed opens remove =>
    exact .openAbsolute mode mark removed (opens.placed_tokens q) remove
  | keepSpace mode space kept =>
    exact .keepSpace mode space (by rwa [continuesAfterSpace_placed])
  | dropSpace mode space depth dropped =>
    exact .dropSpace mode space depth (by rwa [continuesAfterSpace_placed])
  | plain mode removed ordinary =>
    exact .plain mode removed ⟨ordinary.notComma, ordinary.notClosing, ordinary.notColon, ordinary.notSpace⟩

theorem drop_placed (position n : Nat) (tokens : List Token) :
    ∃ q, (Token.placed position tokens).drop n = Token.placed q (tokens.drop n) := by
  induction n generalizing position tokens with
  | zero => exact ⟨position, rfl⟩
  | succ n ih =>
    cases tokens with
    | nil => exact ⟨position, rfl⟩
    | cons t rest => exact ih _ rest

theorem Reaches.placed {config : Config} {s final : State} {tokens : List Token}
    (h : Reaches config s tokens final) (position : Nat) :
    Reaches config s (Token.placed position tokens) final := by
  induction h generalizing position with
  | refl s => exact .refl s
  | @step s final t rest next hmove h ih =>
    obtain ⟨q, hq⟩ := drop_placed (position + t.text.length) next.skip rest
    refine .step (hmove.placed _ _) ?_
    rw [hq]
    exact ih q

/-! ### The tokens ahead -/

/-- How the tokens `written` that a run from `s` writes differ at their head from the tokens that it reads. -/
inductive LookAhead (s : State) : (rest written : List Token) → Prop
  | nil : LookAhead s [] []
  | same (t : Token) (rest written : List Token) : LookAhead s (t :: rest) (t :: written)
  /-- Any element stands before a colon that follows white space or a combinator. -/
  | anchor {t star : Token} {rest written : List Token} (hmark : t.text = [Mark.colon])
      (hstar : star.kind = .mark ∧ star.text = PseudoClass.anyElement)
      (hlast : ∃ c, s.frame.buffer.getLast? = some c ∧ (Text.isSpace c = true ∨ Mark.isCombinator c = true)) :
      LookAhead s (t :: rest) (star :: written)
  | dropped {t : Token} {rest written : List Token} (hspace : t.isOf Text.isSpace = true)
      (hwritten : Token.continuesAfterSpace written.head? = false) : LookAhead s (t :: rest) written

namespace LookAhead

variable {s : State} {rest written : List Token}

theorem continues_eq (h : LookAhead s rest written) (hrest : Token.Scanned rest) :
    Token.continuesAfterSpace written.head? = Token.continuesAfterSpace rest.head? := by
  cases h with
  | nil => rfl
  | same t rest written => rfl
  | anchor hmark hstar hlast =>
    rw [List.head?_cons, List.head?_cons, continuesAfterSpace_of_mark hmark (by decide),
      continuesAfterSpace_of_mark hstar.2 (by decide)]
  | dropped hspace hwritten =>
    rw [hwritten, List.head?_cons, Token.continuesAfterSpace_eq_false hrest.head (.inl hspace)]

/-- No word is written where none is read. -/
theorem not_word (h : LookAhead s rest written) (hrest : ∀ t, rest.head? = some t → t.isWord = false) :
    ∀ t, written.head? = some t → t.isWord = false := by
  cases h with
  | nil => exact nofun
  | same t rest written => exact hrest
  | anchor hmark hstar hlast =>
    intro t ht
    cases ht
    exact Token.isWord_eq_false_iff.2 hstar.1
  | dropped hspace hwritten => exact (of_not_continuesAfterSpace hwritten).2.2

/-- After a colon, the same class is named, and another colon follows or not. -/
theorem afterColon (h : LookAhead s rest written) (hrest : Token.Scanned rest)
    (hlast : s.frame.buffer.getLast? = some Mark.colon) :
    extendedName? written = extendedName? rest ∧ startsWithColon written = startsWithColon rest := by
  cases h with
  | nil => exact ⟨rfl, rfl⟩
  | same t rest written => exact ⟨rfl, rfl⟩
  | anchor hmark hstar hopen =>
    obtain ⟨c, hc, hcase⟩ := hopen
    rw [hlast, Option.some.injEq] at hc
    subst hc
    exact absurd hcase (by decide)
  | dropped hspace hwritten =>
    rename_i t rest
    have hhead : Token.continuesAfterSpace (t :: rest).head? = false :=
      Token.continuesAfterSpace_eq_false hrest.head (.inl hspace)
    have hrest := of_not_continuesAfterSpace hhead
    have hwritten := of_not_continuesAfterSpace hwritten
    rw [hrest.1, hrest.2.1, hwritten.1, hwritten.2.1]
    exact ⟨rfl, rfl⟩

end LookAhead

/-! ### The text of a state -/

end State

def Level.text (level : Level) : Text :=
  level.finished.openText ++ Part.selectorText level.frame.parts ++ level.frame.buffer

/-- The text that opens the argument of a pseudo-class. -/
def openingText (name : Text) : Text := Mark.colon :: name ++ [Mark.parenLeft]

def Mode.text : Mode → Text
  | .argument a => openingText a.name ++ a.text
  | _ => []

theorem Mode.text_eq_nil {mode : Mode} (h : ∀ a, mode ≠ .argument a) : mode.text = [] := by
  unfold Mode.text
  split
  · next a => exact absurd rfl (h a)
  · rfl

def stackText : List Suspended → Text
  | [] => []
  | e :: outer => stackText outer ++ e.level.text ++ openingText e.name

def State.text (s : State) : Text := stackText s.outer ++ s.level.text ++ s.mode.text

theorem Frame.selectorText_allParts (f : Frame) :
    Part.selectorText f.allParts = Part.selectorText f.parts ++ f.buffer := by
  rcases f.allParts_cases with ⟨hbuffer, hparts⟩ | ⟨-, hparts⟩
  · simp [hbuffer, hparts]
  · simp [hparts, Part.selectorText, Part.text]

/-- Where a text is added to the plain text, it is added to the text of the state. -/
theorem State.text_write {s state : State} {w : Text} (houter : state.outer = s.outer)
    (hfinished : state.level.finished = s.level.finished) (hparts : state.frame.parts = s.frame.parts)
    (hbuffer : state.frame.buffer = s.frame.buffer ++ w) (hmode : s.mode.text = []) (hmode' : state.mode.text = []) :
    state.text = s.text ++ w := by
  have hlevel : state.level.text = s.level.text ++ w := by
    rw [Level.text, Level.text, hfinished]
    rw [show state.level.frame.parts = s.level.frame.parts from hparts]
    rw [show state.level.frame.buffer = s.level.frame.buffer ++ w from hbuffer]
    simp
  rw [State.text, State.text, houter, hlevel, hmode, hmode']
  simp

/-! ### Anchors -/

def starToken : Token := ⟨.mark, PseudoClass.anyElement, 0⟩

/-- The tokens of an anchor that is inserted after the text of the frame. -/
inductive AnchorTokens (f : Frame) : List Token → Prop
  | none (hne : f.isEmpty = false) : AnchorTokens f []
  | anyElement (hempty : f.isEmpty = true) : AnchorTokens f [starToken]
  | afterCombinator (hlast : ∃ c, f.buffer.getLast? = some c ∧ (Text.isSpace c = true ∨ Mark.isCombinator c = true)) :
      AnchorTokens f [starToken]
  | belowRoot (hempty : f.isEmpty = true) :
      AnchorTokens f [⟨.word, "html".toList, 0⟩, ⟨.mark, [Mark.space], 0⟩, starToken]
  | pathRoot (hempty : f.isEmpty = true) : AnchorTokens f [⟨.word, PseudoClass.pathRoot, 0⟩]

namespace Frame

variable {f : Frame} {name : Text}

/-- An anchor needs no anchor. -/
theorem anchorText_write {w : Text} (h : f.buffer ++ w = f.anchorText name) :
    (f.write w).anchorText name = f.anchorText name := by
  obtain ⟨c, hlast, hspace, hcombinator⟩ := f.getLast?_anchorText name
  have hne : f.anchorText name ≠ [] := by
    intro hnil
    simp [hnil] at hlast
  have hroot : (f.atInputStart && f.parts.isEmpty
      && (f.anchorText name = [] || f.anchorText name = PseudoClass.anyElement)
      && PseudoClass.rootMatching.contains name) = false := by
    by_contra hroot
    simp only [Bool.not_eq_false, Bool.and_eq_true, Bool.or_eq_true, decide_eq_true_eq, List.isEmpty_iff,
      List.contains_iff_mem] at hroot
    obtain ⟨⟨⟨hinput, hparts⟩, hnil | hstar⟩, hname⟩ := hroot
    · exact hne hnil
    · exact anchorText_ne_anyElement hinput hparts hname hstar
  have hbuffer : (f.write w).buffer = f.anchorText name := h
  have hempty : (f.anchorText name).isEmpty = false := by simpa using hne
  rw [anchorText.eq_def name (f.write w)]
  simp only [hbuffer, atInputStart_write, parts_write, hroot, hempty, hlast, hspace, hcombinator]
  simp

theorem exists_anchorTokens_append (hempty : f.buffer = [] → f.parts = [])
    (hstar : f.atInputStart = true → f.parts = [] → f.buffer = PseudoClass.anyElement →
      name ∉ PseudoClass.rootMatching) :
    ∃ w, AnchorTokens f w ∧ f.buffer ++ Token.texts w = f.anchorText name := by
  have hisEmpty : f.buffer = [] → f.isEmpty = true := fun hnil => by simp [isEmpty, hnil, hempty hnil]
  rw [anchorText]
  split
  · next hroot =>
    simp only [Bool.and_eq_true, Bool.or_eq_true, decide_eq_true_eq, List.isEmpty_iff,
      List.contains_iff_mem] at hroot
    obtain ⟨⟨⟨hinput, hparts⟩, hnil | helement⟩, hname⟩ := hroot
    · exact ⟨_, .belowRoot (hisEmpty hnil), by rw [hnil]; rfl⟩
    · exact absurd hname (hstar hinput hparts helement)
  · split
    · next hpath =>
      simp only [Bool.and_eq_true, List.isEmpty_iff] at hpath
      have hnil := hpath.1.2
      exact ⟨_, .pathRoot (hisEmpty hnil), by rw [hnil]; rfl⟩
    · split
      · next hlast =>
        have hnil := List.getLast?_eq_none_iff.1 hlast
        exact ⟨_, .anyElement (hisEmpty hnil), by rw [hnil]; rfl⟩
      · next c hlast =>
        have hne : f.isEmpty = false := isEmpty_of_buffer fun hnil => by simp [hnil] at hlast
        split
        · next hc => exact ⟨_, .afterCombinator ⟨c, hlast, by simpa using hc⟩, rfl⟩
        · exact ⟨[], .none hne, by simp⟩

theorem trimSpace_ne_nil {text : Text} {c : Char} (hmem : c ∈ text) (hc : Text.isSpace c = false) :
    Text.trimSpace text ≠ [] := by
  intro hnil
  have hspace := Text.trim_eq_nil_iff.1 hnil c hmem
  rw [hc] at hspace
  cases hspace

/-- The tokens of an anchor complete the frame in the same way as the anchor itself. -/
theorem exists_anchorTokens (f : Frame) (name : Text)
    (hstar : f.atInputStart = true → f.parts = [] → f.buffer = PseudoClass.anyElement →
      name ∉ PseudoClass.rootMatching) :
    ∃ w, AnchorTokens f w ∧ (f.write (Token.texts w)).anchor name = f.anchor name ∧
      (Text.trimSpace (f.buffer ++ Token.texts w) = [] → f.parts ≠ []) ∧
      Part.selectorText f.parts ++ f.buffer ++ Token.texts w = Part.selectorText (f.anchor name).parts := by
  rcases f.parts_anchor name with ⟨hbuffer, hne, hparts⟩ | ⟨hempty, hparts⟩
  · have hwrite : f.write [] = f := by rw [write, List.append_nil]
    refine ⟨[], .none (by simp [isEmpty, hne]), by rw [Token.texts_nil, hwrite], fun _ => hne, ?_⟩
    simp [hbuffer, hparts]
  · obtain ⟨w, hw, htext⟩ := exists_anchorTokens_append hempty hstar
    obtain ⟨c, hlast, hspace, -⟩ := f.getLast?_anchorText name
    have hmem : c ∈ f.buffer ++ Token.texts w := by
      rw [htext]
      exact List.mem_of_getLast? hlast
    refine ⟨w, hw, ?_, fun hnil => absurd hnil (trimSpace_ne_nil hmem hspace), ?_⟩
    · have hbuffer : (f.write (Token.texts w)).buffer.isEmpty = false := by
        rw [buffer_write, List.isEmpty_eq_false_iff]
        exact List.ne_nil_of_mem hmem
      have hfirst : (f.buffer.isEmpty && !f.parts.isEmpty) = false := by
        rw [Bool.and_eq_false_iff]
        by_cases hnil : f.buffer = []
        · exact .inr (by simp [hempty hnil])
        · exact .inl (by simpa using hnil)
      rw [anchor, anchor, anchorText_write htext, hbuffer, hfirst]
      rfl
    · rw [List.append_assoc, htext, hparts]
      simp [Part.selectorText, Part.text]

end Frame

namespace State

variable {config : Config} {s final : State} {tokens : List Token}

theorem suspend_write {w name : Text} (h : (s.frame.write w).anchor name = s.frame.anchor name) :
    (s.write w).suspend name = s.suspend name := by
  rw [suspend, suspend, frame_write, h]
  rfl

theorem openArgument_write {w name : Text} (h : (s.frame.write w).anchor name = s.frame.anchor name) :
    (s.write w).openArgument name = s.openArgument name := by
  rw [openArgument, openArgument, frame_write, h]
  rfl

theorem move_write {u : Token} (hmode : s.mode = .regular) (hremoved : s.frame.removed = false)
    (hmark : ∀ c, u.text = [c] →
      c ∉ [Mark.comma, Mark.parenLeft, Mark.parenRight, Mark.squareLeft, Mark.colon] ∧ Text.isSpace c = false) :
    Move config s u tokens { state := s.write u.text } := by
  have hne : ∀ c ∈ [Mark.comma, Mark.parenLeft, Mark.parenRight, Mark.squareLeft, Mark.colon], u.text ≠ [c] :=
    fun c hc htext => (hmark c htext).1 hc
  have hspace : u.isOf Text.isSpace = false := by
    by_contra hspace
    obtain ⟨c, htext, hc⟩ := Token.isOf_iff.1 (by simpa using hspace)
    rw [(hmark c htext).2] at hc
    cases hc
  have hread : s.readPlain u = s.write u.text := by
    rcases readPlain_cases s u with ⟨hu, -, -⟩ | ⟨hu, -⟩ | ⟨hu, -⟩ | ⟨-, -, -, heq⟩
    · exact absurd hu (hne _ (by simp))
    · exact absurd hu (hne _ (by simp))
    · exact absurd hu (hne _ (by simp))
    · exact heq
  have hordinary : s.Ordinary u :=
    ⟨fun hu => absurd hu (hne _ (by simp)), fun hu => absurd hu (hne _ (by simp)), hne _ (by simp), hspace⟩
  have hmove : Move config s u tokens { state := s.readPlain u } := .plain hmode (.inl hremoved) hordinary
  rwa [hread] at hmove

theorem move_star {star : Token} (hmode : s.mode = .regular) (hremoved : s.frame.removed = false)
    (hstar : star.text = PseudoClass.anyElement) :
    Move config s star tokens { state := s.write PseudoClass.anyElement } := by
  rw [← hstar]
  refine move_write hmode hremoved fun c hc => ?_
  rw [hstar] at hc
  cases hc
  decide

end State

namespace AnchorTokens

variable {config : Config} {s final : State} {w tokens : List Token}

/-- The tokens of an anchor are read as plain text. -/
theorem reaches (h : AnchorTokens s.frame w) (hmode : s.mode = .regular) (hremoved : s.frame.removed = false)
    (hreaches : State.Reaches config (s.write (Token.texts w)) tokens final) :
    State.Reaches config s (w ++ tokens) final := by
  cases h with
  | none hne =>
    have hwrite : s.write [] = s := by
      rw [State.write, Frame.write, List.append_nil]
      rfl
    exact hwrite ▸ hreaches
  | anyElement hempty => exact .step (State.move_star hmode hremoved rfl) hreaches
  | afterCombinator hlast => exact .step (State.move_star hmode hremoved rfl) hreaches
  | pathRoot hempty =>
    refine .step (State.move_write hmode hremoved fun c hc => ?_) hreaches
    have hlength : 4 = 1 := congrArg List.length hc
    cases hlength
  | belowRoot hempty =>
    refine .step (State.move_write hmode hremoved fun c hc => by simp at hc) ?_
    have hspace : State.Move config (s.write "html".toList) ⟨.mark, [Mark.space], 0⟩ (starToken :: tokens)
        { state := (s.write "html".toList).write [Mark.space] } := by
      refine .keepSpace hmode rfl (.inr ⟨?_, rfl⟩)
      simp [Frame.isEmpty]
    refine .step hspace (.step (State.move_star hmode hremoved rfl) ?_)
    have hwrite : ((s.write "html".toList).write [Mark.space]).write PseudoClass.anyElement =
        s.write (Token.texts [⟨.word, "html".toList, 0⟩, ⟨.mark, [Mark.space], 0⟩, starToken]) := by
      simp [State.write, State.withFrame, State.frame, Frame.write, starToken]
    rw [hwrite]
    exact hreaches

theorem scanned {f : Frame} {t : Token} (h : AnchorTokens f w) (ht : t.isWord = false)
    (htokens : Token.Scanned (t :: tokens)) : Token.Scanned (w ++ t :: tokens) := by
  have hstar : Token.Scanned (starToken :: t :: tokens) := .cons_mark ⟨'*', by decide, rfl⟩ rfl htokens
  cases h with
  | none hne => exact htokens
  | anyElement hempty => exact hstar
  | afterCombinator hlast => exact hstar
  | pathRoot hempty =>
    have hbody : PseudoClass.pathRoot.any CosmeticFilter.isMark = false := by decide
    refine .cons (Token.proper_word 0 (by decide) (by simpa using hbody)) htokens fun u hu => ?_
    cases hu
    exact .inr ht
  | belowRoot hempty =>
    have hhtml : "html".toList.any CosmeticFilter.isMark = false := by decide
    refine .cons (Token.proper_word 0 (by decide) (by simpa using hhtml))
      (.cons_mark (Token.proper_mark 0 (by decide)) rfl hstar) fun u hu => ?_
    cases hu
    exact .inr rfl

theorem lookAhead {t : Token} {rest : List Token} (h : AnchorTokens s.frame w) (hmark : t.text = [Mark.colon])
    (hne : s.frame.isEmpty = false) : State.LookAhead s (t :: rest) (w ++ t :: tokens) := by
  cases h with
  | none hne => exact .same t rest tokens
  | afterCombinator hlast => exact .anchor hmark ⟨rfl, rfl⟩ hlast
  | anyElement hempty => exact absurd (hne.symm.trans hempty) (by simp)
  | belowRoot hempty => exact absurd (hne.symm.trans hempty) (by simp)
  | pathRoot hempty => exact absurd (hne.symm.trans hempty) (by simp)

end AnchorTokens

/-! ### The start of the input -/

/-- The tokens open a class that could match the root. -/
def OpensRoot (tokens : List Token) : Prop :=
  ∃ colon word paren more, tokens = colon :: word :: paren :: more ∧ colon.text = [Mark.colon] ∧
    word.isWord = true ∧ Text.lower word.text ∈ PseudoClass.rootMatching ∧ paren.text = [Mark.parenLeft]

/-- Any element and a class that could match the root do not start the input. -/
structure State.Unstarred (s : State) (rest : List Token) : Prop where
  start : s.mode = .regular → s.frame.atInputStart = true → s.frame.parts = [] → s.frame.buffer = [] →
    ∀ t more, rest = t :: more → t.isOf Text.isSpace = false ∧
      (t.text = PseudoClass.anyElement → ¬ OpensRoot more)
  element : s.mode = .regular → s.frame.atInputStart = true → s.frame.parts = [] →
    s.frame.buffer = PseudoClass.anyElement → ¬ OpensRoot rest

namespace State.Unstarred

variable {config : Config} {s : State} {t : Token} {rest : List Token} {next : Step}

theorem write (h : s.Unstarred (t :: rest)) {state : State} {w : Text} (hw : w ≠ [])
    (hparts : state.frame.parts = s.frame.parts) (hbuffer : state.frame.buffer = s.frame.buffer ++ w)
    (hinput : state.frame.atInputStart = s.frame.atInputStart)
    (hstar : s.frame.buffer = [] → w = PseudoClass.anyElement →
      s.mode = .regular ∧ t.text = PseudoClass.anyElement) : state.Unstarred rest := by
  refine ⟨fun _ _ _ hnil => ?_, fun _ hinput' hparts' helement => ?_⟩
  · rw [hbuffer] at hnil
    exact absurd (List.append_eq_nil_iff.1 hnil).2 hw
  · rw [hinput] at hinput'
    rw [hparts] at hparts'
    rw [hbuffer, List.append_eq_singleton_iff] at helement
    rcases helement with ⟨hnil, helement⟩ | ⟨-, hnil⟩
    · obtain ⟨hmode, htext⟩ := hstar hnil helement
      exact (h.start hmode hinput' hparts' hnil t rest rfl).2 htext
    · exact absurd hnil hw

theorem of_mode {state : State} (h : state.mode ≠ .regular) : state.Unstarred rest :=
  ⟨fun hmode => absurd hmode h, fun hmode => absurd hmode h⟩

theorem of_parts {state : State} (h : state.frame.parts ≠ []) : state.Unstarred rest :=
  ⟨fun _ _ hnil => absurd hnil h, fun _ _ hnil => absurd hnil h⟩

theorem of_input {state : State} (h : state.frame.atInputStart = false) : state.Unstarred rest :=
  ⟨fun _ hinput => absurd (h.symm.trans hinput) (by simp), fun _ hinput => absurd (h.symm.trans hinput) (by simp)⟩

theorem move (h : s.Unstarred (t :: rest)) (htracked : s.Tracked) (ht : t.Proper)
    (hmove : Move config s t rest next) : next.state.Unstarred (rest.drop next.skip) := by
  cases hmove with
  | inAttribute mode read =>
    have hne := htracked.buffer_ne_nil mode
    rcases readAttribute_cases read with ⟨-, rfl⟩ | ⟨-, -, rfl⟩
    · exact h.write ht.text_ne_nil rfl rfl rfl fun hnil => absurd hnil hne
    · exact h.write ht.text_ne_nil rfl rfl rfl fun hnil => absurd hnil hne
  | inArgument mode read =>
    rcases readArgument_cases (read ⟨[], config⟩) with ⟨a', -, -, rfl⟩ | ⟨-, -, rfl⟩
    · exact of_mode (by simp)
    · exact of_parts (by simp)
  | comma mode mark depth regular => exact of_input rfl
  | close mode mark depth removed stack regular => exact of_parts (by simp)
  | colon mode mark removed plain =>
    have hframe := frame_copyColon rest s
    refine h.write s.colonText_ne_nil (by rw [hframe]) (by rw [hframe]) (by rw [hframe]) fun _ hstar => ?_
    rw [colonText] at hstar
    split at hstar <;> cases hstar
  | openRelative mode mark removed opens limit => exact of_input rfl
  | openAbsolute mode mark removed opens remove => exact of_mode (by simp)
  | keepSpace mode space kept =>
    refine h.write ht.text_ne_nil rfl rfl rfl fun _ hstar => ?_
    rw [Token.isOf, hstar] at space
    cases space
  | dropSpace mode space depth dropped =>
    refine ⟨fun _ hinput hparts hnil => ?_, fun _ _ _ helement => ?_⟩
    · rw [(h.start mode hinput hparts hnil t rest rfl).1] at space
      cases space
    · rintro ⟨colon, word, paren, more, rfl, hcolon, -⟩
      have hempty : s.frame.isEmpty = false := by simp [Frame.isEmpty, show s.frame.buffer = _ from helement]
      have hcontinues := dropped hempty
      rw [List.head?_cons, continuesAfterSpace_of_mark hcolon (by decide)] at hcontinues
      cases hcontinues
  | plain mode removed ordinary =>
    obtain ⟨depth, mode', -, heq⟩ := readPlain_eq s t
    rw [heq]
    exact h.write ht.text_ne_nil rfl rfl rfl fun _ hstar => ⟨mode, hstar⟩

end State.Unstarred

/-! ### What a move writes -/

namespace State

variable {s : State} {t : Token}

theorem text_readAttribute {body : Text} {state : State} (hmode : s.mode = .attribute body)
    (h : s.readAttribute body t = .ok state) : state.text = s.text ++ t.text := by
  have hnil : s.mode.text = [] := by rw [hmode]; rfl
  rcases readAttribute_cases h with ⟨-, rfl⟩ | ⟨-, -, rfl⟩
  · exact text_write rfl rfl rfl rfl hnil rfl
  · exact text_write rfl rfl rfl rfl hnil rfl

theorem text_readArgument (htracked : s.Tracked) {input : Input} {a : Argument} {state : State}
    (hmode : s.mode = .argument a) (h : s.readArgument input a t = .ok state) :
    state.text = s.text ++ t.text := by
  rcases readArgument_cases h with ⟨a', hname, htext, rfl⟩ | ⟨hmark, -, rfl⟩
  · simp [text, hmode, Mode.text, hname, htext]
  · have hbuffer : s.level.frame.buffer = [] := htracked.argument a hmode
    simp [text, hmode, Mode.text, Level.text, endArgument, State.withFrame, State.frame, hbuffer, hmark,
      openingText, Part.selectorText, Part.text]

theorem text_nextSelector (hmode : s.mode = .regular) : s.nextSelector.text = s.text ++ [Mark.comma] := by
  have hselector : Selector.text s.level.frame.allParts =
      Part.selectorText s.level.frame.parts ++ s.level.frame.buffer := Frame.selectorText_allParts _
  simp [text, nextSelector, hmode, Mode.text, Level.text, Level.selectors, hselector, Part.selectorText]

theorem text_resume (htracked : s.Tracked) (hmode : s.mode = .regular) {enclosing : Suspended}
    {outer : List Suspended} (hstack : s.outer = enclosing :: outer) :
    (s.resume enclosing outer).text = s.text ++ [Mark.parenRight] := by
  have hbuffer := (htracked.outer enclosing (by simp [hstack])).1
  simp [text, resume, hmode, Mode.text, Level.text, Level.selectors, hstack, stackText, hbuffer, Part.selectorText,
    Part.text_relative_concat, Frame.selectorText_allParts, openingText]

end State

/-! ### The replay -/

/-- The tokens `written` lead from `s` to the same state as the tokens `rest` that were read, and they are
what was added to the text. -/
structure Replayed (config : Config) (s : State) (rest : List Token) (final : State) (written : List Token) :
    Prop where
  reaches : State.Reaches config s written final
  scanned : Token.Scanned written
  text : s.text ++ Token.texts written = final.text
  ahead : (s.mode = .regular → s.frame.isEmpty = false) → State.LookAhead s rest written

namespace Replayed

open State

variable {config : Config} {s state final : State} {t : Token} {rest written : List Token}

theorem copy (h : Replayed config state rest final written) (hrest : Token.Scanned (t :: rest))
    (hmove : Move config s t written { state := state }) (htext : state.text = s.text ++ t.text)
    (hword : t.isWord = true → state.mode = .regular → state.frame.isEmpty = false) :
    Replayed config s (t :: rest) final (t :: written) := by
  refine ⟨.step hmove h.reaches, .cons hrest.head h.scanned fun u hu => ?_, ?_, fun _ => .same t rest written⟩
  · cases ht : t.isWord with
    | false => exact .inl rfl
    | true =>
      -- no word follows a word among the tokens that are read
      have hnot : ∀ v, rest.head? = some v → v.isWord = false := by
        intro v hv
        rcases (List.isChain_cons.1 hrest.apart).1 v (by simpa using hv) with hfalse | hfalse
        · exact absurd (ht.symm.trans hfalse) (by simp)
        · exact hfalse
      exact .inr ((h.ahead (hword ht)).not_word hnot u hu)
  · rw [Token.texts_cons, ← List.append_assoc, ← htext, h.text]

theorem move_colon (h : Replayed config (s.copyColon rest) rest final written)
    (hrest : Token.Scanned (t :: rest)) (hmode : s.mode = .regular) (hmark : t.text = [Mark.colon])
    (hremoved : s.frame.removed = false) (hplain : ∀ name kind, extendedName? rest = some (name, kind) →
      0 < s.frame.parenDepth ∧ name ∉ PseudoClass.hasNames) :
    ∃ written, Replayed config s (t :: rest) final written := by
  have hframe := frame_copyColon rest s
  have hnil : s.mode.text = [] := by rw [hmode]; rfl
  have hword : t.isWord = false := hrest.head.isWord_of_text hmark (by decide)
  have hlast : (s.copyColon rest).frame.buffer.getLast? = some Mark.colon := by
    rw [hframe, List.getLast?_append_of_ne_nil _ s.colonText_ne_nil, getLast?_colonText]
  have hahead := h.ahead fun _ => Frame.isEmpty_of_buffer fun hnil => by simp [hnil] at hlast
  obtain ⟨hname, hcolon⟩ := hahead.afterColon hrest.tail hlast
  have hplain' : ∀ name kind, extendedName? written = some (name, kind) →
      0 < s.frame.parenDepth ∧ name ∉ PseudoClass.hasNames := by rwa [hname]
  cases hempty : s.frame.isEmpty with
  | false =>
    have hcopy : s.copyColon written = s.copyColon rest := by rw [copyColon, copyColon, hcolon]
    have hmove : Move config s t written { state := s.copyColon rest } :=
      hcopy ▸ .colon hmode hmark hremoved hplain'
    refine ⟨t :: written, h.copy hrest hmove ?_ (by simp [hword])⟩
    rw [hmark]
    exact text_write rfl rfl (by rw [hframe]) (by rw [hframe]; simp [colonText, hempty]) hnil hnil
  | true =>
    -- the mark of any element is read first, and the colon after it
    have hstar : (s.write PseudoClass.anyElement).frame.isEmpty = false := by simp [Frame.isEmpty]
    have hcopy : (s.write PseudoClass.anyElement).copyColon written = s.copyColon rest := by
      rw [copyColon, copyColon, hcolon, hstar, hempty]
      rfl
    have hmove : Move config (s.write PseudoClass.anyElement) t written { state := s.copyColon rest } :=
      hcopy ▸ .colon hmode hmark hremoved hplain'
    refine ⟨starToken :: t :: written, .step (move_star hmode hremoved rfl) (.step hmove h.reaches), ?_, ?_, ?_⟩
    · exact .cons_mark ⟨'*', by decide, rfl⟩ rfl (.cons_mark hrest.head hword h.scanned)
    · have htext : (s.copyColon rest).text = s.text ++ (PseudoClass.anyElement ++ [Mark.colon]) :=
        text_write rfl rfl (by rw [hframe]) (by rw [hframe]; simp [colonText, hempty]) hnil hnil
      rw [← h.text, htext]
      simp [starToken, hmark]
    · exact fun hne => absurd (hempty.symm.trans (hne hmode)) (by simp)

/-- A name in lower case is a word like the name that is read. -/
theorem proper_lower {word : Token} (h : word.Proper) (hword : word.isWord = true) :
    Token.Proper { word with text := Text.lower word.text } := by
  have hkind : word.kind = .word := by simpa [Token.isWord] using hword
  have hmarks : ∀ c ∈ Text.lower word.text, CosmeticFilter.isMark c = false := by
    intro c hc
    obtain ⟨d, hd, rfl⟩ := List.mem_map.1 hc
    rcases Text.toLower_cases d with heq | ⟨hlow, hhigh⟩
    · rw [heq]
      exact h.not_mark hword d hd
    · by_contra hmark
      have hall : (Mark.all.all fun m => !('a'.val ≤ m.val && m.val ≤ 'z'.val)) = true := by decide
      have hletter := List.all_eq_true.1 hall d.toLower (by simpa [CosmeticFilter.isMark] using hmark)
      rw [decide_eq_true hlow, decide_eq_true hhigh] at hletter
      cases hletter
  have hne : Text.lower word.text ≠ [] := by simpa [Text.lower] using h.text_ne_nil
  simpa [Token.Proper, hkind] using ⟨hne, hmarks⟩

/-- The tokens of an opening, with its anchor before them. -/
theorem opening (h : Replayed config state (rest.drop 2) final written) (hrest : Token.Scanned (t :: rest))
    (hunstarred : s.Unstarred (t :: rest)) (hmode : s.mode = .regular) (hmark : t.text = [Mark.colon])
    (hremoved : s.frame.removed = false) {name : Text} {kind : PseudoClass.Kind} (hopens : s.Opens rest name kind)
    (htext : state.text = stackText s.outer ++ s.level.finished.openText ++
      Part.selectorText (s.frame.anchor name).parts ++ openingText name)
    (hmove : ∀ w tokens, (s.frame.write w).anchor name = s.frame.anchor name →
      (Text.trimSpace (s.frame.buffer ++ w) = [] → s.frame.parts ≠ []) → (s.write w).Opens tokens name kind →
      Move config (s.write w) t tokens { state := state, skip := 2 }) :
    ∃ written, Replayed config s (t :: rest) final written := by
  obtain ⟨word, paren, more, rfl, hword, rfl, hkind, hparen⟩ := hopens.tokens
  have hcolon : t.isWord = false := hrest.head.isWord_of_text hmark (by decide)
  have hproper : paren.Proper := hrest.tail.tail.head
  have hparenWord : paren.isWord = false := hproper.isWord_of_text hparen (by decide)
  obtain ⟨w, hw, hanchor, htrim, hwritten⟩ := s.frame.exists_anchorTokens (Text.lower word.text)
    fun hinput hparts hbuffer hname => hunstarred.element hmode hinput hparts hbuffer
      ⟨t, word, paren, more, rfl, hmark, hword, hname, hparen⟩
  let lowered : Token := { word with text := Text.lower word.text }
  have hopens' : (s.write (Token.texts w)).Opens (lowered :: paren :: written) (Text.lower word.text) kind := by
    refine ⟨?_, hopens.depth, Token.spells_iff.2 hparen, hopens.allowed, hopens.placed⟩
    have hlowered : lowered.isWord = true := hword
    rw [extendedName?, if_pos hlowered]
    simp only [lowered, Text.lower_lower, hkind, Option.map_some]
  have hscanned : Token.Scanned (t :: lowered :: paren :: written) := by
    refine .cons_mark hrest.head hcolon (.cons (proper_lower hrest.tail.head hword) ?_ fun u hu => ?_)
    · exact .cons_mark hproper hparenWord h.scanned
    · cases hu
      exact .inr hparenWord
  refine ⟨w ++ t :: lowered :: paren :: written, ?_, hw.scanned hcolon hscanned, ?_, ?_⟩
  · exact hw.reaches hmode hremoved (.step (hmove _ _ hanchor htrim hopens') h.reaches)
  · have hs : s.text = stackText s.outer ++ s.level.finished.openText ++
        (Part.selectorText s.frame.parts ++ s.frame.buffer) := by
      simp [State.text, hmode, Mode.text, Level.text, State.frame]
    rw [← h.text, htext, ← hwritten, hs]
    simp [hmark, hparen, lowered, openingText]
  · exact fun hne => hw.lookAhead hmark (hne hmode)

theorem move_space (h : Replayed config s rest final written) (hrest : Token.Scanned (t :: rest))
    (hmode : s.mode = .regular) (hspace : t.isOf Text.isSpace = true)
    (hdropped : s.frame.isEmpty = false → Token.continuesAfterSpace rest.head? = false) :
    Replayed config s (t :: rest) final written := by
  refine ⟨h.reaches, h.scanned, h.text, fun hne => .dropped hspace ?_⟩
  rw [(h.ahead hne).continues_eq hrest.tail]
  exact hdropped (hne hmode)

end Replayed

/-- What a run writes is read by a run to the same state. -/
theorem State.Reaches.replay {config : Config} {s final : State} {tokens : List Token}
    (h : Reaches config s tokens final) (htracked : s.Tracked) (hscanned : Token.Scanned tokens)
    (hunstarred : s.Unstarred tokens) : ∃ written, Replayed config s tokens final written := by
  induction h with
  | refl s => exact ⟨[], .refl s, .nil, by simp, fun _ => .nil⟩
  | @step s final t rest next hmove h ih =>
    have ht := hscanned.head
    obtain ⟨written, hwritten⟩ := ih (htracked.move ht hmove) (hscanned.tail.drop _)
      (hunstarred.move htracked ht hmove)
    cases hmove with
    | inAttribute mode read =>
      refine ⟨_, hwritten.copy hscanned (.inAttribute mode read) (text_readAttribute mode read) fun _ _ => ?_⟩
      refine Frame.isEmpty_of_buffer ?_
      rcases readAttribute_cases read with ⟨-, rfl⟩ | ⟨-, -, rfl⟩
      · exact List.append_ne_nil_of_right_ne_nil _ ht.text_ne_nil
      · exact List.append_ne_nil_of_right_ne_nil _ ht.text_ne_nil
    | inArgument mode read =>
      have hread := read ⟨[], config⟩
      refine ⟨_, hwritten.copy hscanned (.inArgument mode read) (text_readArgument htracked mode hread) ?_⟩
      rcases readArgument_cases hread with ⟨a', -, -, rfl⟩ | ⟨hmark, -, -⟩
      · exact fun _ => nofun
      · intro hword
        exact absurd (ht.isWord_of_text hmark (by decide)) (by simp [hword])
    | comma mode mark depth regular =>
      refine ⟨_, hwritten.copy hscanned (.comma mode mark depth regular) ?_ ?_⟩
      · rw [mark]
        exact text_nextSelector mode
      · intro hword
        exact absurd (ht.isWord_of_text mark (by decide)) (by simp [hword])
    | close mode mark depth removed stack regular =>
      refine ⟨_, hwritten.copy hscanned (.close mode mark depth removed stack regular) ?_ ?_⟩
      · rw [mark]
        exact text_resume htracked mode stack
      · intro hword
        exact absurd (ht.isWord_of_text mark (by decide)) (by simp [hword])
    | colon mode mark removed plain => exact hwritten.move_colon hscanned mode mark removed plain
    | @openRelative name mode mark removed opens limit =>
      refine hwritten.opening hscanned hunstarred mode mark removed opens ?_ ?_
      · simp [State.text, suspend, stackText, Level.text, mode, Mode.text, Part.selectorText]
      · intro w tokens hanchor _ hopens
        rw [← suspend_write hanchor]
        exact .openRelative mode mark removed hopens limit
    | @openAbsolute name mode mark removed opens remove =>
      refine hwritten.opening hscanned hunstarred mode mark removed opens ?_ ?_
      · simp [State.text, openArgument, Level.text, Mode.text, State.frame, State.withFrame]
      · intro w tokens hanchor htrim hopens
        rw [← openArgument_write hanchor]
        exact .openAbsolute mode mark removed hopens fun hname => ⟨(remove hname).1, htrim⟩
    | keepSpace mode space kept =>
      have hempty : (s.write t.text).frame.isEmpty = false :=
        Frame.isEmpty_of_buffer (List.append_ne_nil_of_right_ne_nil _ ht.text_ne_nil)
      have hahead := (hwritten.ahead fun _ => hempty).continues_eq hscanned.tail
      have hnil : s.mode.text = [] := by rw [mode]; rfl
      refine ⟨_, hwritten.copy hscanned (.keepSpace mode space ?_) (text_write rfl rfl rfl rfl hnil hnil) ?_⟩
      · exact kept.imp_right fun hkept => ⟨hkept.1, hahead.trans hkept.2⟩
      · exact fun _ _ => hempty
    | dropSpace mode space depth dropped => exact ⟨_, hwritten.move_space hscanned mode space dropped⟩
    | plain mode removed ordinary =>
      obtain ⟨depth, mode', hmode', heq⟩ := readPlain_eq s t
      have hnil : s.mode.text = [] := by rw [mode]; rfl
      refine ⟨_, hwritten.copy hscanned (.plain mode removed ordinary) ?_ fun _ _ => ?_⟩
      · rw [heq]
        refine text_write rfl rfl rfl rfl hnil (Mode.text_eq_nil ?_)
        rintro a rfl
        exact absurd (hmode' a rfl) (by simp [mode])
      · rw [heq]
        exact Frame.isEmpty_of_buffer (List.append_ne_nil_of_right_ne_nil _ ht.text_ne_nil)

end CosmeticFilter.Selector
