import CosmeticFilter.Proofs.Validity

/-!
# Known pseudo-classes are not plain text

A plain part goes to the native matcher as it is, which knows nothing of extended pseudo-classes.
`Text.Inert` says of a plain text, scanned with the compiler's own rules for brackets and parentheses, that no
colon stands before the name of a known pseudo-class outside of attributes and parentheses, nor before one of
the `:has()` family inside parentheses. Every plain part of a compiled list is inert, at every level of nesting
(`SelectorList.parse_inert`).

The compiler checks the word after a colon when it meets the colon, but plain text is put together from tokens
that need not be neighbours in the input: white space is dropped, and anchors are inserted. `State.Screened`
says why the pieces never meet in a new word or after a new colon: the text ends in a mark wherever a word comes
next (`Screened.apart`), and where it ends in a colon, the word that comes next was checked for it
(`Screened.colon`). By `State.Tracked` the scan of the finished text sees the modes of the run.
-/

namespace CosmeticFilter

/-! ### The word at the start of a text -/

/-- The first token of the text is the word `word`. -/
def Token.StartsWith (word text : Text) : Prop :=
  ∃ token rest, Token.scan text = token :: rest ∧ token.isWord = true ∧ token.text = word

namespace Token

/-- A text starts with a word or not; what follows the word does not matter. -/
theorem startsWith_iff {word text : Text} : StartsWith word text ↔
    word ≠ [] ∧ text.takeWhile (fun c => !CosmeticFilter.isMark c) = word := by
  obtain ⟨first, more, hfirst, hmore⟩ : ∃ first more, text.takeWhile (fun c => !CosmeticFilter.isMark c) = first ∧
      text.dropWhile (fun c => !CosmeticFilter.isMark c) = more := ⟨_, _, rfl, rfl⟩
  have hsplit : first ++ more = text := by rw [← hfirst, ← hmore, List.takeWhile_append_dropWhile]
  have hmarks : ∀ c ∈ first, CosmeticFilter.isMark c = false := by
    intro c hc
    rw [← hfirst] at hc
    simpa using List.mem_takeWhile_imp hc
  have hnext : ∀ position t, (scanFrom position more).head? = some t → t.isWord = false := by
    intro position t ht
    have hhead := List.head?_dropWhile_not (fun c => !CosmeticFilter.isMark c) text
    rw [hmore] at hhead
    cases more with
    | nil => cases ht
    | cons c more =>
      rw [scanFrom, if_pos (by simpa using hhead)] at ht
      cases ht
      rfl
  rw [hfirst]
  by_cases hnil : first = []
  · constructor
    · rintro ⟨token, rest, hscan, hword, -⟩
      rw [← hsplit, hnil, List.nil_append] at hscan
      have htoken := hnext 0 token (congrArg List.head? hscan)
      rw [hword] at htoken
      cases htoken
    · rintro ⟨hne, rfl⟩
      exact absurd hnil hne
  · have hscan : scan text = ⟨.word, first, 0⟩ :: scanFrom (0 + first.length) more := by
      rw [← hsplit]
      exact scanFrom_word hnil hmarks (hnext _)
    constructor
    · rintro ⟨token, rest, htoken, -, rfl⟩
      rw [htoken] at hscan
      cases hscan
      exact ⟨hnil, rfl⟩
    · rintro ⟨-, rfl⟩
      exact ⟨_, _, hscan, rfl, rfl⟩

theorem takeWhile_append_mark {text more : Text} {c : Char} (hc : CosmeticFilter.isMark c = true) :
    (text ++ c :: more).takeWhile (fun c => !CosmeticFilter.isMark c) =
      text.takeWhile (fun c => !CosmeticFilter.isMark c) := by
  induction text with
  | nil => simp [hc]
  | cons d text ih => simp [List.takeWhile_cons, ih]

/-- What follows a mark does not change the first word of a text. -/
theorem startsWith_append_mark {word text more : Text} {c : Char} (hc : CosmeticFilter.isMark c = true) :
    StartsWith word (text ++ c :: more) ↔ StartsWith word text := by
  rw [startsWith_iff, startsWith_iff, takeWhile_append_mark hc]

end Token

/-! ### Inert texts -/

/-- Whether a pseudo-class of this name may be plain text where `parenDepth` parentheses are open. -/
structure PseudoClass.MayBePlain (parenDepth : Nat) (word : Text) : Prop where
  unknown : parenDepth = 0 → Text.lower word ∉ supportedNames
  notHas : Text.lower word ∉ hasNames

theorem PseudoClass.exists_kind?_of_mem {word : Text} (h : Text.lower word ∈ supportedNames) :
    ∃ kind, kind? (Text.lower word) = some kind := by
  rw [kind?, isRelative, isAbsolute, Text.lower_lower]
  rcases List.mem_append.1 h with h | h
  · exact ⟨.relative, by simp [h]⟩
  · by_cases hrelative : relativeNames.contains (Text.lower word) = true
    · exact ⟨.relative, by rw [if_pos hrelative]⟩
    · exact ⟨.absolute, by rw [if_neg hrelative, if_pos (by simpa using h)]⟩

open Selector

namespace Text

/-- Outside of attributes, no colon of the text stands directly before a name that has to be compiled there. -/
def Inert (value : Text) : Prop :=
  ∀ before after word, value = before ++ Mark.colon :: after → (Context.after before).bracket = none →
    Token.StartsWith word after → PseudoClass.MayBePlain (Context.after before).parenDepth word

theorem inert_of_not_mem {value : Text} (h : Mark.colon ∉ value) : Inert value := by
  rintro before after word rfl
  exact absurd (by simp) h

namespace Inert

variable {a w : Text}

theorem append_mark {c : Char} (h : Inert a) (hc : isMark c = true) : Inert (a ++ [c]) := by
  intro before after word heq hbracket hstarts
  rcases append_eq_split heq with ⟨more, ha, rfl⟩ | ⟨more, hmore, -⟩
  · exact h before more word ha hbracket ((Token.startsWith_append_mark hc).1 hstarts)
  · obtain ⟨-, -, rfl⟩ := singleton_eq_split hmore
    obtain ⟨hne, hnil⟩ := Token.startsWith_iff.1 hstarts
    exact absurd hnil.symm hne

theorem append_marks (h : Inert a) (hw : ∀ c ∈ w, isMark c = true) : Inert (a ++ w) := by
  induction w generalizing a with
  | nil => rwa [List.append_nil]
  | cons c w ih =>
    have hnext := ih (h.append_mark (hw c (by simp))) fun d hd => hw d (by simp [hd])
    rwa [List.append_assoc] at hnext

/-- A word is added after a mark, and after a colon only if it may stand there. -/
theorem append_word (h : Inert a) (hw : ∀ c ∈ w, isMark c = false)
    (hlast : ∀ c, a.getLast? = some c → isMark c = true)
    (hcolon : a.getLast? = some Mark.colon → (Context.after a).bracket = none →
      PseudoClass.MayBePlain (Context.after a).parenDepth w) : Inert (a ++ w) := by
  intro before after word heq hbracket hstarts
  rcases append_eq_split heq with ⟨more, rfl, rfl⟩ | ⟨more, rfl, -⟩
  · rcases List.eq_nil_or_concat more with rfl | ⟨more', c, rfl⟩
    · -- the colon is the last mark before the word
      obtain ⟨-, hword⟩ := Token.startsWith_iff.1 hstarts
      rw [List.nil_append, List.takeWhile_eq_self_iff.2 (by simpa using hw)] at hword
      have hne : Mark.colon ≠ Mark.squareLeft := by decide
      have hleft : Mark.colon ≠ Mark.parenLeft := by decide
      have hright : Mark.colon ≠ Mark.parenRight := by decide
      have hmay := hcolon (by simp)
      rw [Context.after_concat, hword] at hmay
      simpa [Context.step, hbracket, hne, hleft, hright] using hmay
    · rw [List.concat_eq_append] at h hlast hstarts
      have hc : isMark c = true := hlast c (by simp [List.getLast?_cons])
      refine h before (more' ++ [c]) word rfl hbracket ?_
      rw [List.append_assoc, List.singleton_append, Token.startsWith_append_mark hc] at hstarts
      rwa [Token.startsWith_append_mark hc]
  · have hmark := hw Mark.colon (by simp)
    cases hmark

end Inert

/-- An anchor adds no word to the text of a frame, or it has no colon. -/
theorem inert_anchorText {f : Frame} (name : Text) (h : Inert f.buffer) : Inert (f.anchorText name) := by
  rw [Frame.anchorText]
  split
  · exact inert_of_not_mem (by decide)
  · split
    · exact inert_of_not_mem (by decide)
    · split
      · exact inert_of_not_mem (by decide)
      · split
        · exact h.append_mark (by decide)
        · exact h

end Text

namespace Selector

/-! ### Plain parts -/

/-- `P` holds of all plain parts of a selector. -/
def Plain (P : Text → Prop) (selector : Selector) : Prop := ∀ text, .regular text ∈ selector → P text

/-- `P` holds of all plain parts that are complete, at every level. -/
def Level.Plain (P : Text → Prop) (level : Level) : Prop :=
  ∀ selector, selector ∈ level.finished ∨ selector = level.frame.parts →
    ∀ names, Selector.Everywhere (fun _ => Selector.Plain P) names selector

/-- `P` holds of all plain parts that are complete, in all lists. -/
structure State.Plain (P : Text → Prop) (s : State) : Prop where
  level : s.level.Plain P
  outer : ∀ e ∈ s.outer, e.level.Plain P

section

variable {P : Text → Prop} {names : List Text} {selector : Selector} {level : Level}

theorem plain_nil : Selector.Everywhere (fun _ => Plain P) names [] := ⟨by simp [Plain], by simp⟩

theorem Plain.concat {part : Part} (h : Selector.Everywhere (fun _ => Plain P) names selector)
    (hregular : ∀ text, part = .regular text → P text)
    (hpart : part.Everywhere (fun _ => Plain P) names) :
    Selector.Everywhere (fun _ => Plain P) names (selector ++ [part]) := by
  refine h.concat (fun text hmem => ?_) hpart
  rcases List.mem_append.1 hmem with hmem | hmem
  · exact h.1 text hmem
  · exact hregular text (List.mem_singleton.1 hmem).symm

namespace Level.Plain

theorem frame (h : level.Plain P) {f : Frame} (hparts : f.parts = level.frame.parts) :
    Level.Plain P { level with frame := f } := by
  intro selector hselector
  rw [hparts] at hselector
  exact h selector hselector

theorem concat (h : level.Plain P) {f : Frame} {part : Part} (hf : f.parts = level.frame.parts ++ [part])
    (hregular : ∀ text, part = .regular text → P text)
    (hpart : ∀ names, part.Everywhere (fun _ => Selector.Plain P) names) :
    Level.Plain P { level with frame := f } := by
  rintro selector (hfinished | rfl) names
  · exact h selector (.inl hfinished) names
  · rw [hf]
    exact Selector.Plain.concat (h _ (.inr rfl) names) hregular (hpart names)

theorem anchor (h : level.Plain P) {name : Text} (hanchor : P (level.frame.anchorText name)) :
    Level.Plain P { level with frame := level.frame.anchor name } := by
  rcases level.frame.parts_anchor name with ⟨-, -, hparts⟩ | ⟨-, hparts⟩
  · exact h.frame hparts
  · refine h.concat hparts (fun text heq => ?_) fun names => nofun
    cases heq
    exact hanchor

theorem selectors (h : level.Plain P) (hbuffer : P level.frame.buffer) :
    ∀ selector ∈ level.selectors, ∀ names, Selector.Everywhere (fun _ => Selector.Plain P) names selector := by
  intro selector hmem names
  rcases List.mem_append.1 hmem with hmem | hmem
  · exact h selector (.inl hmem) names
  · rw [List.mem_singleton.1 hmem]
    rcases level.frame.allParts_cases with ⟨-, hparts⟩ | ⟨-, hparts⟩
    · rw [hparts]
      exact h _ (.inr rfl) names
    · rw [hparts]
      refine Selector.Plain.concat (h _ (.inr rfl) names) (fun text heq => ?_) nofun
      cases heq
      exact hbuffer

end Level.Plain

end

namespace State.Plain

variable {P : Text → Prop} {config : Config} {s next : State} {t : Token}

theorem start : State.start.Plain P := by
  refine ⟨?_, by simp [State.start]⟩
  rintro selector (hfinished | rfl) names
  · cases hfinished
  · exact plain_nil

/-- What holds of every text that becomes complete, with no parenthesis open, holds of all plain parts. -/
theorem growth_outside (h : s.Plain P) (hbuffer : s.mode = .regular → s.frame.parenDepth = 0 → P s.frame.buffer)
    (hanchor : s.mode = .regular → s.frame.parenDepth = 0 → ∀ name, P (s.frame.anchorText name))
    (hgrowth : Growth config s t next) : next.Plain P := by
  cases hgrowth with
  | text outer finished parts input removed mode =>
    refine ⟨fun selector hselector names => ?_, by rw [outer]; exact h.outer⟩
    rw [finished, show next.level.frame.parts = s.level.frame.parts from parts] at hselector
    exact h.level selector hselector names
  | absolute mode argument => exact ⟨h.level.concat rfl nofun fun _ => nofun, h.outer⟩
  | comma mode mark depth regular =>
    refine ⟨?_, h.outer⟩
    rintro selector (hfinished | rfl) names
    · exact h.level.selectors (hbuffer mode depth) selector hfinished names
    · exact plain_nil
  | @close enclosing outer mode mark depth removed stack regular =>
    have hselectors := h.level.selectors (hbuffer mode depth)
    refine ⟨(h.outer enclosing (by simp [stack])).concat rfl nofun fun names => ?_, fun e he => ?_⟩
    · intro name argument heq
      cases heq
      exact SelectorList.everywhere_iff.2 ⟨s.level.selectors_ne_nil, fun selector hmem => hselectors selector hmem _⟩
    · rw [outer_resume] at he
      exact h.outer e (by simp [stack, he])
  | @openRelative name _ mode removed opens limit =>
    refine ⟨?_, fun e he => ?_⟩
    · rintro selector (hfinished | rfl) names
      · cases hfinished
      · exact plain_nil
    · rcases List.mem_cons.1 he with rfl | he
      · exact h.level.anchor (hanchor mode opens.depth name)
      · exact h.outer e he
  | @openAbsolute name _ mode removed opens remove =>
    exact ⟨h.level.anchor (hanchor mode opens.depth name), h.outer⟩

/-- The same, where it holds of the text at all times. -/
theorem growth (h : s.Plain P) (hbuffer : P s.frame.buffer) (hanchor : ∀ name, P (s.frame.anchorText name))
    (hgrowth : Growth config s t next) : next.Plain P :=
  h.growth_outside (fun _ _ => hbuffer) (fun _ _ => hanchor) hgrowth

end State.Plain

/-! ### What comes next -/

theorem Mode.eq_regular {mode : Mode} (hargument : ∀ a, mode ≠ .argument a) (hbracket : mode.bracket? = none) :
    mode = .regular := by
  match mode, hargument, hbracket with
  | .regular, _, _ => rfl
  | .argument a, hargument, _ => exact absurd rfl (hargument a)

/-- The text is inert, and it stays so with the word that comes next. -/
structure State.Screened (s : State) (rest : List Token) : Prop where
  text : Text.Inert s.frame.buffer
  apart : ∀ t, rest.head? = some t → t.isWord = true → ∀ c, s.frame.buffer.getLast? = some c → isMark c = true
  colon : s.mode = .regular → s.frame.buffer.getLast? = some Mark.colon →
    ∀ t, rest.head? = some t → t.isWord = true → PseudoClass.MayBePlain s.frame.parenDepth t.text

namespace State.Screened

variable {config : Config} {s : State} {t : Token} {rest : List Token} {next : Step}

theorem fresh {tokens : List Token} (hbuffer : s.frame.buffer = []) : s.Screened tokens := by
  refine ⟨?_, fun _ _ _ c hc => ?_, fun _ hlast => ?_⟩
  · rw [hbuffer]
    exact Text.inert_of_not_mem (by simp)
  · simp [hbuffer] at hc
  · simp [hbuffer] at hlast

/-- A token that is written to the text. A colon is written only while an attribute is open. -/
theorem write (h : s.Screened (t :: rest)) (htracked : s.Tracked) (hscanned : Token.Scanned (t :: rest))
    (hargument : ∀ a, s.mode ≠ .argument a) {state : State} {depth : Nat}
    (hframe : state.frame = { s.frame.write t.text with parenDepth := depth })
    (hcolon : t.text = [Mark.colon] → state.mode ≠ .regular) : state.Screened rest := by
  have ht := hscanned.head
  refine ⟨?_, ?_, ?_⟩
  · rw [hframe]
    show Text.Inert (s.frame.buffer ++ t.text)
    cases hword : t.isWord with
    | true =>
      refine h.text.append_word (ht.not_mark hword) (h.apart t rfl hword) fun hlast hbracket => ?_
      rw [htracked.bracket] at hbracket
      rw [htracked.parens]
      exact h.colon (Mode.eq_regular hargument hbracket) hlast t rfl hword
    | false =>
      obtain ⟨c, hc, htext⟩ := ht.mark hword
      rw [htext]
      exact h.text.append_mark hc
  · rw [hframe]
    intro u hu hword c hc
    change (s.frame.buffer ++ t.text).getLast? = some c at hc
    rw [List.getLast?_append_of_ne_nil _ ht.text_ne_nil] at hc
    rcases (List.isChain_cons.1 hscanned.apart).1 u (by simpa using hu) with hmark | hmark
    · obtain ⟨d, hd, htext⟩ := ht.mark hmark
      rw [htext] at hc
      cases hc
      exact hd
    · rw [hword] at hmark
      cases hmark
  · rw [hframe]
    intro hmode hlast
    change (s.frame.buffer ++ t.text).getLast? = some Mark.colon at hlast
    rw [List.getLast?_append_of_ne_nil _ ht.text_ne_nil] at hlast
    exact absurd hmode (hcolon (ht.text_of_mem (List.mem_of_getLast? hlast) (by decide)))

/-- A word after a colon that is copied may stand there. -/
theorem mayBePlain_of_plain {depth : Nat} (hplain : ∀ name kind, extendedName? rest = some (name, kind) →
    0 < depth ∧ name ∉ PseudoClass.hasNames) (ht : rest.head? = some t) (hword : t.isWord = true) :
    PseudoClass.MayBePlain depth t.text := by
  have hnamed : Text.lower t.text ∈ PseudoClass.supportedNames →
      0 < depth ∧ Text.lower t.text ∉ PseudoClass.hasNames := by
    intro hmem
    obtain ⟨kind, hkind⟩ := PseudoClass.exists_kind?_of_mem hmem
    obtain ⟨more, rfl⟩ := List.head?_eq_some_iff.1 ht
    exact hplain _ kind (by simp [extendedName?, hword, hkind])
  refine ⟨fun hdepth hmem => ?_, fun hmem => ?_⟩
  · have := (hnamed hmem).1
    omega
  · exact (hnamed (List.mem_append_left _ (List.mem_append_left _ hmem))).2 hmem

theorem move_colon (h : s.Screened (t :: rest)) (hplain : ∀ name kind, extendedName? rest = some (name, kind) →
    0 < s.frame.parenDepth ∧ name ∉ PseudoClass.hasNames) : (s.copyColon rest).Screened rest := by
  have hframe := frame_copyColon rest s
  refine ⟨?_, ?_, ?_⟩
  · rw [hframe]
    refine h.text.append_marks fun c hc => ?_
    rw [colonText] at hc
    split at hc
    · rcases List.mem_append.1 hc with hc | hc <;> rw [List.mem_singleton.1 hc] <;> decide
    · rw [List.mem_singleton.1 hc]
      decide
  · rw [hframe]
    intro _ _ _ c hc
    rw [List.getLast?_append_of_ne_nil _ s.colonText_ne_nil, getLast?_colonText] at hc
    cases hc
    decide
  · rw [hframe]
    exact fun _ _ u hu hword => mayBePlain_of_plain hplain hu hword

theorem move (h : s.Screened (t :: rest)) (htracked : s.Tracked) (hscanned : Token.Scanned (t :: rest))
    (hmove : Move config s t rest next) : next.state.Screened (rest.drop next.skip) := by
  have ht := hscanned.head
  cases hmove with
  | inAttribute mode read =>
    have hargument : ∀ a, s.mode ≠ .argument a := by simp [mode]
    rcases readAttribute_cases read with ⟨-, rfl⟩ | ⟨hmark, -, rfl⟩
    · exact h.write htracked hscanned hargument rfl fun _ => by simp
    · exact h.write htracked hscanned hargument rfl fun hcolon => absurd (hmark.symm.trans hcolon) (by decide)
  | inArgument mode read =>
    have hbuffer := htracked.argument _ mode
    rcases readArgument_cases (read ⟨[], config⟩) with ⟨a', -, -, rfl⟩ | ⟨-, -, rfl⟩
    · exact fresh hbuffer
    · exact fresh hbuffer
  | comma mode mark depth regular => exact fresh rfl
  | @close enclosing outer mode mark depth removed stack regular =>
    exact fresh (htracked.outer enclosing (by simp [stack])).1
  | colon mode mark removed plain => exact h.move_colon plain
  | openRelative mode mark removed opens limit => exact fresh rfl
  | openAbsolute mode mark removed opens remove => exact fresh (Frame.buffer_anchor _ _)
  | keepSpace mode space kept =>
    refine h.write htracked hscanned (by simp [mode]) rfl fun hcolon => ?_
    rw [Token.isOf, hcolon] at space
    cases space
  | dropSpace mode space depth dropped =>
    -- no word follows white space that is dropped, unless nothing stands before it
    have hnone : s.frame.buffer ≠ [] → ∀ u, rest.head? = some u → u.isWord = true → False := by
      intro hne u hu hword
      have hcontinues := dropped (Frame.isEmpty_of_buffer hne)
      rw [(of_not_continuesAfterSpace hcontinues).2.2 u hu] at hword
      cases hword
    refine ⟨h.text, fun u hu hword c hc => ?_, fun _ hlast u hu hword => ?_⟩
    · exact (hnone (by rintro hnil; simp [hnil] at hc) u hu hword).elim
    · exact (hnone (by rintro hnil; simp [hnil] at hlast) u hu hword).elim
  | plain mode removed ordinary =>
    obtain ⟨depth, mode', -, heq⟩ := readPlain_eq s t
    rw [heq]
    exact h.write htracked hscanned (by simp [mode]) rfl fun hcolon => absurd hcolon ordinary.notColon

end State.Screened

end Selector

namespace SelectorList

open Selector

/-- No plain part of a list that is returned hands a known pseudo-class to the native matcher. -/
theorem parse_inert {config : Config} {text : Text} {list : SelectorList} (h : parse config text = .ok list) :
    list.Everywhere (fun _ selector => ∀ value, .regular value ∈ selector → Text.Inert value) [] := by
  obtain ⟨final, ⟨hscreened, hplain⟩, -, -, -, rfl⟩ := compile_induction_tracked
    (P := fun s rest => s.Screened rest ∧ s.Plain Text.Inert) (compile_of_parse h) ⟨.fresh rfl, .start⟩ (by
      intro s t rest next htracked hscanned _ hP hmove
      obtain ⟨hscreened, hplain⟩ := hP
      refine ⟨hscreened.move htracked hscanned hmove, ?_⟩
      exact hplain.growth hscreened.text (fun name => Text.inert_anchorText name hscreened.text) hmove.growth)
  exact everywhere_iff.2 ⟨final.level.selectors_ne_nil,
    fun selector hmem => hplain.level.selectors hscreened.text selector hmem []⟩

theorem parse_inert_nested :
    ∃ list, parse .standard "a[title=\":has(b)\"]:nth-child(1 of c:is(d)) :IS( > :hover e, f :not(:root) g )".toList =
        .ok list ∧
      list.Everywhere (fun _ selector => ∀ value, .regular value ∈ selector → Text.Inert value) [] := by
  have h : parse .standard
      "a[title=\":has(b)\"]:nth-child(1 of c:is(d)) :IS( > :hover e, f :not(:root) g )".toList =
      .ok [[.regular "a[title=\":has(b)\"]:nth-child(1 of c:is(d)) *".toList, .relative "is".toList
        [[.regular "> :hover e".toList],
          [.regular "f *".toList, .relative "not".toList [[.regular "*:root".toList]], .regular " g".toList]]]] :=
    (parse_eq_compile _ _).trans (eq_ok_of_toOption (by decide +kernel))
  exact ⟨_, h, parse_inert h⟩

end SelectorList

end CosmeticFilter
