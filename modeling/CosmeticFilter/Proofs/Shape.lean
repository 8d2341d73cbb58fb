import CosmeticFilter.Proofs.Context

/-!
# The shape of compiled lists

`Selector.Shaped` says what a compiled selector looks like: a plain part comes first, no two plain
parts are neighbours, plain parts are not empty and do not end in white space, nor in a combinator if
an extended pseudo-class follows, and the names of pseudo-classes are known ones. It holds at every
level of nesting (`SelectorList.Everywhere`).

The invariant of the compiler is `State.Shaping`. The parts that are complete are sound, and a text
that ends in white space is never the end of a part, because white space is kept only where a token
follows that continues the part (`Shaping.ahead`). Between the opening of a pseudo-class and its
argument the frame is `Anchored`, and everywhere else it is `Growing`.
-/

namespace CosmeticFilter

/-! ### Levels of nesting -/

/-- `Includes names list names' inner`: below the pseudo-classes `names`, the innermost first, stands
`list`, and nested in it, below the pseudo-classes `names'`, stands `inner`. -/
inductive SelectorList.Includes : List Text → SelectorList → List Text → SelectorList → Prop
  | self {names : List Text} {list : SelectorList} : Includes names list names list
  | argument {names names' : List Text} {list argument inner : SelectorList} {selector : Selector} {name : Text}
      (hselector : selector ∈ list) (hpart : .relative name argument ∈ selector)
      (h : Includes (name :: names) argument names' inner) : Includes names list names' inner

/-- The list below the pseudo-classes `names` and all lists nested in it are not empty, and `P` holds of
their selectors. -/
def SelectorList.Everywhere (P : List Text → Selector → Prop) (names : List Text) (list : SelectorList) : Prop :=
  ∀ names' inner, Includes names list names' inner → inner ≠ [] ∧ ∀ selector ∈ inner, P names' selector

/-- `P` holds of all selectors nested in a part. -/
def Part.Everywhere (P : List Text → Selector → Prop) (names : List Text) (part : Part) : Prop :=
  ∀ name argument, part = .relative name argument → SelectorList.Everywhere P (name :: names) argument

/-- `P` holds of a selector and of all selectors nested in it. -/
def Selector.Everywhere (P : List Text → Selector → Prop) (names : List Text) (selector : Selector) : Prop :=
  P names selector ∧ ∀ part ∈ selector, part.Everywhere P names

section

variable {P : List Text → Selector → Prop} {names : List Text}

theorem SelectorList.everywhere_iff {list : SelectorList} :
    list.Everywhere P names ↔ list ≠ [] ∧ ∀ selector ∈ list, Selector.Everywhere P names selector := by
  constructor
  · intro h
    obtain ⟨hne, hself⟩ := h names list .self
    refine ⟨hne, fun selector hselector => ⟨hself selector hselector, ?_⟩⟩
    rintro part hpart name argument rfl names' inner hinner
    exact h names' inner (.argument hselector hpart hinner)
  · rintro ⟨hne, h⟩ names' inner hinner
    cases hinner with
    | self => exact ⟨hne, fun selector hselector => (h selector hselector).1⟩
    | argument hselector hpart hinner => exact (h _ hselector).2 _ hpart _ _ rfl names' inner hinner

theorem SelectorList.Everywhere.mono {Q : List Text → Selector → Prop} {list : SelectorList}
    (h : list.Everywhere P names) (hPQ : ∀ names selector, P names selector → Q names selector) :
    list.Everywhere Q names := by
  intro names' inner hinner
  obtain ⟨hne, hselectors⟩ := h names' inner hinner
  exact ⟨hne, fun selector hselector => hPQ names' selector (hselectors selector hselector)⟩

theorem Selector.Everywhere.mono {Q : List Text → Selector → Prop} {selector : Selector}
    (h : Selector.Everywhere P names selector) (hPQ : ∀ names selector, P names selector → Q names selector) :
    Selector.Everywhere Q names selector :=
  ⟨hPQ names selector h.1, fun part hpart name argument heq => (h.2 part hpart name argument heq).mono hPQ⟩

theorem Selector.Everywhere.concat {selector : Selector} {part : Part}
    (h : Selector.Everywhere P names selector) (hself : P names (selector ++ [part]))
    (hpart : part.Everywhere P names) : Selector.Everywhere P names (selector ++ [part]) := by
  refine ⟨hself, fun p hp => ?_⟩
  rcases List.mem_append.1 hp with hp | hp
  · exact h.2 p hp
  · rw [List.mem_singleton.1 hp]
    exact hpart

end

/-! ### Shape -/

/-- A part that is complete in itself: plain text that does not end in white space, or a pseudo-class
of a known name. -/
def Part.Complete : Part → Prop
  | .regular text => ∃ c, text.getLast? = some c ∧ Text.isSpace c = false
  | .absolute name _ => name ∈ PseudoClass.absoluteNames
  | .relative name _ => name ∈ PseudoClass.relativeNames

/-- Whether the second part may follow the first one: after plain text only an extended pseudo-class
may, and only if the text does not end in a combinator. -/
def Part.Joins : Part → Part → Prop
  | .regular _, .regular _ => False
  | .regular text, _ => ∀ c, text.getLast? = some c → Mark.isCombinator c = false
  | _, _ => True

namespace Selector

/-- What a compiled selector looks like. -/
structure Shaped (selector : Selector) : Prop where
  starts : ∃ text more, selector = .regular text :: more ∧
    ∀ c, text.head? = some c → Text.isSpace c = false
  complete : ∀ part ∈ selector, part.Complete
  joined : selector.IsChain Part.Joins

/-- A selector can be continued by a part that may follow its last one. -/
theorem Shaped.concat {selector : Selector} {part : Part} (h : Shaped selector) (hpart : part.Complete)
    (hjoins : ∀ last, selector.getLast? = some last → last.Joins part) : Shaped (selector ++ [part]) := by
  obtain ⟨text, more, rfl, hspace⟩ := h.starts
  refine ⟨⟨text, more ++ [part], rfl, hspace⟩, ?_, ?_⟩
  · intro p hp
    rcases List.mem_append.1 hp with hp | hp
    · exact h.complete p hp
    · rw [List.mem_singleton.1 hp]
      exact hpart
  · refine List.isChain_append.2 ⟨h.joined, .singleton part, ?_⟩
    intro last hlast p hp
    cases hp
    exact hjoins last hlast

theorem Shaped.regular {text : Text} (hhead : ∀ c, text.head? = some c → Text.isSpace c = false)
    (hlast : ∃ c, text.getLast? = some c ∧ Text.isSpace c = false) : Shaped [.regular text] :=
  ⟨⟨text, [], rfl, hhead⟩, by simpa [Part.Complete] using hlast, .singleton _⟩

end Selector

/-- The selector is well shaped, and so are the selectors nested in it. -/
def Selector.Sound (selector : Selector) : Prop := ∀ names, Selector.Everywhere (fun _ => Shaped) names selector

theorem Selector.Sound.concat {selector : Selector} {part : Part} (h : Selector.Sound selector)
    (hpart : part.Complete) (hnested : ∀ names, part.Everywhere (fun _ => Shaped) names)
    (hjoins : ∀ last, selector.getLast? = some last → last.Joins part) :
    Selector.Sound (selector ++ [part]) :=
  fun names => (h names).concat ((h names).1.concat hpart hjoins) (hnested names)

/-! ### Names -/

namespace Text

/-- What changes in lower case becomes a lower-case letter. -/
theorem toLower_cases (c : Char) :
    c.toLower = c ∨ 'a'.val ≤ c.toLower.val ∧ c.toLower.val ≤ 'z'.val := by
  unfold Char.toLower
  split
  · next h =>
    right
    simp only [UInt32.le_iff_toNat_le, UInt32.toNat_add] at h ⊢
    simp at h ⊢
    omega
  · exact .inl rfl

theorem toLower_toLower (c : Char) : c.toLower.toLower = c.toLower := by
  rcases toLower_cases c with h | ⟨h, -⟩
  · rw [h, h]
  · generalize c.toLower = d at h
    unfold Char.toLower
    rw [dif_neg]
    intro hupper
    exact absurd (UInt32.le_trans h hupper.2) (by decide)

theorem lower_lower (t : Text) : lower (lower t) = lower t := by
  rw [lower, lower, List.map_map]
  exact List.map_congr_left fun c _ => toLower_toLower c

end Text

/-- A name in lower case that is of a kind is a member of the names of that kind. -/
theorem PseudoClass.mem_of_kind? {word : Text} {kind : Kind}
    (h : PseudoClass.kind? (Text.lower word) = some kind) :
    match kind with
    | .relative => Text.lower word ∈ PseudoClass.relativeNames
    | .absolute => Text.lower word ∈ PseudoClass.absoluteNames := by
  rw [kind?, isRelative, isAbsolute, Text.lower_lower] at h
  split at h
  · next hrelative =>
    cases h
    simpa using hrelative
  · split at h
    · next habsolute =>
      cases h
      simpa using habsolute
    · cases h

namespace Selector

/-! ### Frames -/

namespace Frame

variable {f : Frame} {name : Text}

/-- An anchor text does not start with white space unless the text before the pseudo-class does. -/
theorem head?_anchorText {c : Char} (h : (f.anchorText name).head? = some c) :
    f.buffer.head? = some c ∨ Text.isSpace c = false := by
  rw [anchorText] at h
  split at h
  · cases h
    exact .inr rfl
  · split at h
    · cases h
      exact .inr rfl
    · split at h
      · cases h
        exact .inr rfl
      · next last hlast =>
        have hne : f.buffer ≠ [] := by
          rintro hnil
          simp [hnil] at hlast
        split at h
        · rw [List.head?_append_of_ne_nil _ hne] at h
          exact .inl h
        · exact .inl h

/-- An anchor text ends neither in white space nor in a combinator. -/
theorem getLast?_anchorText (f : Frame) (name : Text) : ∃ c, (f.anchorText name).getLast? = some c ∧
    Text.isSpace c = false ∧ Mark.isCombinator c = false := by
  rw [anchorText]
  split
  · exact ⟨'*', rfl, rfl, rfl⟩
  · split
    · exact ⟨'y', rfl, rfl, rfl⟩
    · split
      · exact ⟨'*', rfl, rfl, rfl⟩
      · next c hlast =>
        split
        · exact ⟨'*', by simp, rfl, rfl⟩
        · next hc => exact ⟨c, hlast, by simpa using hc⟩

/-- The frame between pseudo-classes: its last part is not plain, so that plain text can follow. -/
structure Growing (f : Frame) : Prop where
  sound : f.parts ≠ [] → Selector.Sound f.parts
  extended : ∀ last, f.parts.getLast? = some last → last.isRegular = false
  start : f.parts = [] → ∀ c, f.buffer.head? = some c → Text.isSpace c = false

/-- The frame before the argument of a pseudo-class, which is the next part. -/
structure Anchored (f : Frame) : Prop where
  sound : Selector.Sound f.parts
  joins : ∀ last, f.parts.getLast? = some last → ∀ part : Part, part.isRegular = false → last.Joins part

theorem Growing.empty {atInputStart : Bool} : Growing { atInputStart } :=
  ⟨fun h => absurd rfl h, by simp, by simp⟩

theorem joins_of_extended {last : Part} (h : last.isRegular = false) (part : Part) : last.Joins part := by
  cases last with
  | regular text => cases h
  | absolute name argument => exact trivial
  | relative name argument => exact trivial

theorem joins_of_not_regular {text : Text} {part : Part} (hpart : part.isRegular = false)
    (h : ∀ c, text.getLast? = some c → Mark.isCombinator c = false) : (Part.regular text).Joins part := by
  cases part with
  | regular text => cases hpart
  | absolute name argument => exact h
  | relative name argument => exact h

theorem Growing.regular (h : f.Growing) {text : Text}
    (hhead : f.parts = [] → ∀ c, text.head? = some c → Text.isSpace c = false)
    (hlast : ∃ c, text.getLast? = some c ∧ Text.isSpace c = false) :
    Selector.Sound (f.parts ++ [.regular text]) := by
  by_cases hparts : f.parts = []
  · rw [hparts]
    exact fun names => ⟨.regular (hhead hparts) hlast, by simp [Part.Everywhere]⟩
  · exact (h.sound hparts).concat hlast (fun _ => nofun) fun last hmem =>
      joins_of_extended (h.extended last hmem) _

theorem Growing.anchor (h : f.Growing) (name : Text) : (f.anchor name).Anchored := by
  rcases f.parts_anchor name with ⟨-, hne, hparts⟩ | ⟨-, hparts⟩
  · refine ⟨by rw [hparts]; exact h.sound hne, ?_⟩
    intro last hlast part _
    rw [hparts] at hlast
    exact joins_of_extended (h.extended last hlast) part
  · obtain ⟨c, hlast, hspace, hcombinator⟩ := f.getLast?_anchorText name
    refine ⟨?_, ?_⟩
    · rw [hparts]
      refine h.regular (fun hnil d hd => ?_) ⟨c, hlast, hspace⟩
      rcases head?_anchorText hd with hd | hd
      · exact h.start hnil d hd
      · exact hd
    · intro last hmem part hpart
      rw [hparts, List.getLast?_concat, Option.some.injEq] at hmem
      subst hmem
      refine joins_of_not_regular hpart fun d hd => ?_
      rw [hlast, Option.some.injEq] at hd
      rw [← hd, hcombinator]

theorem Anchored.push (h : f.Anchored) {part : Part} (hregular : part.isRegular = false)
    (hpart : part.Complete) (hnested : ∀ names, part.Everywhere (fun _ => Shaped) names) :
    (f.push part).Growing := by
  refine ⟨fun _ => ?_, ?_, by simp⟩
  · exact h.sound.concat hpart hnested fun last hlast => h.joins last hlast part hregular
  · intro last hlast
    rw [parts_push, List.getLast?_concat, Option.some.injEq] at hlast
    rw [← hlast, hregular]

/-- A growing frame whose text does not end in white space is a sound selector. -/
theorem Growing.allParts (h : f.Growing) (hregular : f.allParts.any Part.isRegular = true)
    (hlast : ∀ c, f.buffer.getLast? = some c → Text.isSpace c = false) : Selector.Sound f.allParts := by
  rcases f.allParts_cases with ⟨-, hparts⟩ | ⟨hne, hparts⟩
  · rw [hparts] at hregular ⊢
    refine h.sound ?_
    rintro hnil
    simp [hnil] at hregular
  · rw [hparts]
    refine h.regular h.start ⟨f.buffer.getLast hne, List.getLast?_eq_getLast_of_ne_nil hne, ?_⟩
    exact hlast _ (List.getLast?_eq_getLast_of_ne_nil hne)

end Frame

end Selector

/-! ### White space -/

namespace Token

theorem isMark_of_isSpace {c : Char} (h : Text.isSpace c = true) : CosmeticFilter.isMark c = true := by
  simp only [Text.isSpace, Text.selectorSpace, List.contains_eq_mem, decide_eq_true_eq, List.mem_cons,
    List.not_mem_nil, or_false] at h
  rcases h with rfl | rfl | rfl | rfl | rfl <;> decide

/-- A token that is no white space holds none. -/
theorem Proper.not_space {t : Token} (h : t.Proper) (hspace : t.isOf Text.isSpace = false) {c : Char}
    (hc : c ∈ t.text) : Text.isSpace c = false := by
  by_contra hc'
  rw [Bool.not_eq_false] at hc'
  cases hword : t.isWord with
  | true =>
    have := h.not_mark hword c hc
    rw [isMark_of_isSpace hc'] at this
    cases this
  | false =>
    obtain ⟨d, -, hd⟩ := h.mark hword
    rw [hd, List.mem_singleton] at hc
    rw [isOf_iff.2 ⟨d, hd, by rw [← hc, hc']⟩] at hspace
    cases hspace

/-- Neither white space nor the end of a selector continues a part after white space. -/
theorem continuesAfterSpace_eq_false {t : Token} (h : t.Proper)
    (ht : t.isOf Text.isSpace = true ∨ t.text = [Mark.comma] ∨ t.text = [Mark.parenRight]) :
    continuesAfterSpace (some t) = false := by
  have hc : ∃ c, t.text = [c] ∧ c ∈ Mark.comma :: Mark.parenRight :: Text.selectorSpace := by
    rcases ht with ht | ht | ht
    · obtain ⟨c, hc, hspace⟩ := isOf_iff.1 ht
      have hmem : c ∈ Text.selectorSpace := by simpa [Text.isSpace] using hspace
      exact ⟨c, hc, by simp [hmem]⟩
    · exact ⟨_, ht, by simp⟩
    · exact ⟨_, ht, by simp⟩
  obtain ⟨c, htext, hc⟩ := hc
  have hmarks : CosmeticFilter.isMark c = true ∧ Mark.isCombinator c = false ∧ Mark.isQuote c = false ∧
      c ∉ continuingMarks := by
    simp only [Text.selectorSpace, List.mem_cons, List.not_mem_nil, or_false] at hc
    rcases hc with rfl | rfl | rfl | rfl | rfl | rfl | rfl <;> decide
  obtain ⟨hmark, hcombinator, hquote, hcontinuing⟩ := hmarks
  have hword : t.isWord = false := h.isWord_of_text htext hmark
  simp [continuesAfterSpace, hword, isOf, htext, Text.isOne, hcombinator, hquote, hcontinuing]

end Token

namespace Selector.State

theorem continuesAfterSpace_of_mark {t : Token} {c : Char} (h : t.text = [c])
    (hc : c ∈ Token.continuingMarks) : Token.continuesAfterSpace (some t) = true := by
  have hof : t.isOf Token.continuingMarks.contains = true := Token.isOf_iff.2 ⟨c, h, by simpa using hc⟩
  simp [Token.continuesAfterSpace, hof]

/-- A token that does not continue a part is no word, and no colon. -/
theorem of_not_continuesAfterSpace {tokens : List Token} (h : Token.continuesAfterSpace tokens.head? = false) :
    extendedName? tokens = none ∧ startsWithColon tokens = false ∧
      ∀ t, tokens.head? = some t → t.isWord = false := by
  match tokens with
  | [] => exact ⟨rfl, rfl, nofun⟩
  | t :: rest =>
    have hword : t.isWord = false := by
      by_contra hword
      rw [Bool.not_eq_false] at hword
      simp [Token.continuesAfterSpace, hword] at h
    refine ⟨by simp [extendedName?, hword], ?_, ?_⟩
    · by_contra hcolon
      have hcolon : t.text = [Mark.colon] := Token.spells_iff.1 (by simpa [startsWithColon] using hcolon)
      rw [List.head?_cons, continuesAfterSpace_of_mark hcolon (by decide)] at h
      cases h
    · rintro u hu
      cases hu
      exact hword

/-! ### The invariant -/

/-- Everything that is complete is sound, and a text ends in white space only where it goes on. -/
structure Shaping (s : State) (rest : List Token) : Prop where
  finished : ∀ selector ∈ s.level.finished, Selector.Sound selector
  growing : (∀ a, s.mode ≠ .argument a) → s.frame.Growing
  anchored : ∀ a, s.mode = .argument a → s.frame.Anchored ∧ a.name ∈ PseudoClass.absoluteNames
  outer : ∀ e ∈ s.outer, (∀ selector ∈ e.level.finished, Selector.Sound selector) ∧
    e.level.frame.Anchored ∧ e.name ∈ PseudoClass.relativeNames
  ahead : s.mode = .regular → ∀ c, s.frame.buffer.getLast? = some c → Text.isSpace c = true →
    rest ≠ [] ∧ (s.frame.parenDepth = 0 → Token.continuesAfterSpace rest.head? = true)

namespace Shaping

variable {config : Config} {s : State} {t : Token} {rest : List Token} {next : Step}

theorem start {tokens : List Token} : State.start.Shaping tokens :=
  ⟨by simp [State.start], fun _ => .empty, nofun, by simp [State.start], by simp [State.start, State.frame]⟩

/-- Where a selector ends, its text does not end in white space. -/
theorem not_space (h : s.Shaping (t :: rest)) (ht : t.Proper) (hmode : s.mode = .regular)
    (hdepth : s.frame.parenDepth = 0) (hmark : t.text = [Mark.comma] ∨ t.text = [Mark.parenRight]) :
    ∀ c, s.frame.buffer.getLast? = some c → Text.isSpace c = false := by
  intro c hc
  by_contra hspace
  rw [Bool.not_eq_false] at hspace
  have hcontinues := (h.ahead hmode c hc hspace).2 hdepth
  rw [List.head?_cons, Token.continuesAfterSpace_eq_false ht (.inr hmark)] at hcontinues
  cases hcontinues

/-- Nor does the text at the end of the input. -/
theorem not_space_end (h : s.Shaping []) (hmode : s.mode = .regular) :
    ∀ c, s.frame.buffer.getLast? = some c → Text.isSpace c = false := by
  intro c hc
  by_contra hspace
  rw [Bool.not_eq_false] at hspace
  exact (h.ahead hmode c hc hspace).1 rfl

theorem selectors (h : s.Shaping rest) (hmode : s.mode = .regular)
    (hregular : s.frame.allParts.any Part.isRegular = true)
    (hlast : ∀ c, s.frame.buffer.getLast? = some c → Text.isSpace c = false) :
    ∀ selector ∈ s.level.selectors, Selector.Sound selector := by
  intro selector hmem
  rcases List.mem_append.1 hmem with hmem | hmem
  · exact h.finished selector hmem
  · rw [List.mem_singleton.1 hmem]
    exact (h.growing (by simp [hmode])).allParts hregular hlast

/-- More text, which does not start with white space where a selector starts. -/
theorem growing_write (h : s.Shaping rest) (hmode : ∀ a, s.mode ≠ .argument a) {f : Frame} {w : Text}
    (hparts : f.parts = s.frame.parts) (hbuffer : f.buffer = s.frame.buffer ++ w)
    (hstart : s.frame.isEmpty = true → ∀ c, w.head? = some c → Text.isSpace c = false) : f.Growing := by
  have hgrowing := h.growing hmode
  refine ⟨by rw [hparts]; exact hgrowing.sound, by rw [hparts]; exact hgrowing.extended, ?_⟩
  intro hnil c hc
  rw [hparts] at hnil
  rw [hbuffer, List.head?_append] at hc
  cases hhead : s.frame.buffer.head? with
  | some d =>
    rw [hhead] at hc
    cases hc
    exact hgrowing.start hnil _ hhead
  | none =>
    rw [hhead] at hc
    refine hstart ?_ c hc
    simp [Frame.isEmpty, hnil, List.head?_eq_none_iff.1 hhead]

theorem move_inAttribute (h : s.Shaping (t :: rest)) (htracked : s.Tracked) {body : Text}
    {state : State} (hmode : s.mode = .attribute body) (hread : s.readAttribute body t = .ok state) :
    state.Shaping rest := by
  have hno : ∀ a, s.mode ≠ .argument a := by simp [hmode]
  have hempty : s.frame.isEmpty = true → ∀ c, t.text.head? = some c → Text.isSpace c = false :=
    fun hempty => absurd (Frame.isEmpty_iff.1 hempty).1 (htracked.buffer_ne_nil hmode)
  have hgrowing : (s.write t.text).frame.Growing := h.growing_write hno rfl rfl hempty
  rcases readAttribute_cases hread with ⟨-, rfl⟩ | ⟨hmark, -, rfl⟩
  · exact ⟨h.finished, fun _ => hgrowing, nofun, h.outer, nofun⟩
  · refine ⟨h.finished, fun _ => hgrowing, nofun, h.outer, fun _ c hc hspace => ?_⟩
    change (s.frame.buffer ++ t.text).getLast? = some c at hc
    rw [hmark, List.getLast?_concat] at hc
    cases hc
    cases hspace

theorem move_inArgument (h : s.Shaping (t :: rest)) (htracked : s.Tracked) {input : Input} {a : Argument}
    {state : State} (hmode : s.mode = .argument a) (hread : s.readArgument input a t = .ok state) :
    state.Shaping rest := by
  obtain ⟨hanchored, hname⟩ := h.anchored a hmode
  rcases readArgument_cases hread with ⟨a', hname', -, rfl⟩ | ⟨-, -, rfl⟩
  · refine ⟨h.finished, fun hno => absurd rfl (hno a'), ?_, h.outer, nofun⟩
    rintro b hb
    cases hb
    exact ⟨hanchored, by rwa [hname']⟩
  · have hgrowing : (s.frame.push (.absolute a.name a.text)).Growing := hanchored.push rfl hname fun _ => nofun
    refine ⟨h.finished, fun _ => ⟨hgrowing.sound, hgrowing.extended, hgrowing.start⟩, nofun, h.outer, ?_⟩
    intro _ c hc
    rw [buffer_endArgument, htracked.argument a hmode] at hc
    cases hc

theorem move_close (h : s.Shaping (t :: rest)) (htracked : s.Tracked) (ht : t.Proper)
    (hmode : s.mode = .regular) (hmark : t.text = [Mark.parenRight]) (hdepth : s.frame.parenDepth = 0)
    {enclosing : Suspended} {outer : List Suspended} (hstack : s.outer = enclosing :: outer)
    (hregular : s.frame.allParts.any Part.isRegular = true) : (s.resume enclosing outer).Shaping rest := by
  obtain ⟨hfinished, hanchored, hname⟩ := h.outer enclosing (by simp [hstack])
  have hargument := h.selectors hmode hregular (h.not_space ht hmode hdepth (.inr hmark))
  have hnested : ∀ names, Part.Everywhere (fun _ => Shaped) names (.relative enclosing.name s.level.selectors) := by
    intro names name argument heq
    cases heq
    exact SelectorList.everywhere_iff.2 ⟨s.level.selectors_ne_nil, fun selector hmem => hargument selector hmem _⟩
  have hgrowing : (s.resume enclosing outer).frame.Growing := hanchored.push rfl hname hnested
  refine ⟨hfinished, fun _ => hgrowing, by simp [hmode], fun e he => ?_, fun _ c hc => ?_⟩
  · rw [outer_resume] at he
    exact h.outer e (by simp [hstack, he])
  · have hbuffer := (htracked.outer enclosing (by simp [hstack])).1
    rw [frame_resume, Frame.buffer_push, hbuffer] at hc
    cases hc

theorem move_space (h : s.Shaping (t :: rest)) (htrimmed : Token.Trimmed (t :: rest))
    (hmode : s.mode = .regular) (hspace : t.isOf Text.isSpace = true)
    (hempty : s.frame.isEmpty = false) (hkept : 0 < s.frame.parenDepth ∨
      Token.continuesAfterSpace rest.head? = true) : (s.write t.text).Shaping rest := by
  have hno : ∀ a, s.mode ≠ .argument a := by simp [hmode]
  refine ⟨h.finished, fun _ => ?_, by simp [hmode], h.outer, fun _ _ _ _ => ⟨?_, fun hdepth => ?_⟩⟩
  · exact h.growing_write hno rfl rfl (by simp [hempty])
  · rintro rfl
    exact absurd (htrimmed t rfl) (by simp [hspace])
  · rcases hkept with hkept | hkept
    · exact absurd hdepth (Nat.ne_of_gt hkept)
    · exact hkept

theorem move (h : s.Shaping (t :: rest)) (htracked : s.Tracked) (ht : t.Proper)
    (htrimmed : Token.Trimmed (t :: rest)) (hmove : Move config s t rest next) :
    next.state.Shaping (rest.drop next.skip) := by
  cases hmove with
  | inAttribute mode read => exact h.move_inAttribute htracked mode read
  | inArgument mode read => exact h.move_inArgument htracked mode (read ⟨[], config⟩)
  | comma mode mark depth regular =>
    have hfinished := h.selectors mode regular (h.not_space ht mode depth (.inl mark))
    exact ⟨hfinished, fun _ => .empty, by simp [mode], h.outer, by simp⟩
  | close mode mark depth removed stack regular => exact h.move_close htracked ht mode mark depth stack regular
  | colon mode mark removed plain =>
    have hframe := frame_copyColon rest s
    refine ⟨h.finished, fun _ => ?_, by simp [mode], h.outer, fun _ c hc hspace => ?_⟩
    · refine h.growing_write (by simp [mode]) (by rw [hframe]) (w := s.colonText) (by rw [hframe]) ?_
      intro hempty c hc
      rw [colonText, if_pos hempty] at hc
      cases hc
      rfl
    · rw [hframe, List.getLast?_append_of_ne_nil _ s.colonText_ne_nil, getLast?_colonText] at hc
      cases hc
      cases hspace
  | openRelative mode mark removed opens limit =>
    obtain ⟨word, paren, more, -, -, rfl, hkind, -⟩ := opens.tokens
    refine ⟨by simp, fun _ => .empty, by simp [mode], ?_, by simp⟩
    intro e he
    rcases List.mem_cons.1 he with rfl | he
    · exact ⟨h.finished, (h.growing (by simp [mode])).anchor _, PseudoClass.mem_of_kind? hkind⟩
    · exact h.outer e he
  | openAbsolute mode mark removed opens remove =>
    obtain ⟨word, paren, more, -, -, rfl, hkind, -⟩ := opens.tokens
    refine ⟨h.finished, fun hno => absurd rfl (hno _), fun a ha => ?_, h.outer, fun hmode => ?_⟩
    · cases ha
      exact ⟨(h.growing (by simp [mode])).anchor _, PseudoClass.mem_of_kind? hkind⟩
    · cases hmode
  | keepSpace mode space kept =>
    rcases kept with kept | ⟨hempty, kept⟩
    · refine h.move_space htrimmed mode space ?_ (.inl kept)
      -- a parenthesis is open, so the text is not empty
      by_contra hempty
      have hparens := htracked.parens
      rw [(Frame.isEmpty_iff.1 (by simpa using hempty)).1] at hparens
      rw [← hparens] at kept
      cases kept
    · exact h.move_space htrimmed mode space hempty (.inr kept)
  | dropSpace mode space depth dropped =>
    refine ⟨h.finished, h.growing, h.anchored, h.outer, fun _ c hc hspace => ?_⟩
    have hcontinues := (h.ahead mode c hc hspace).2 depth
    rw [List.head?_cons, Token.continuesAfterSpace_eq_false ht (.inl space)] at hcontinues
    cases hcontinues
  | plain mode removed ordinary =>
    obtain ⟨depth, mode', hmode', heq⟩ := readPlain_eq s t
    have hargument : ∀ a, mode' ≠ .argument a := by
      rintro a rfl
      exact absurd (hmode' a rfl) (by simp [mode])
    rw [heq]
    refine ⟨h.finished, fun _ => ?_, fun a ha => absurd ha (hargument a), h.outer, fun _ c hc hspace => ?_⟩
    · refine h.growing_write (w := t.text) (by simp [mode]) rfl rfl fun _ c hc => ?_
      exact ht.not_space ordinary.notSpace (List.mem_of_head? hc)
    · change (s.frame.buffer ++ t.text).getLast? = some c at hc
      rw [List.getLast?_append_of_ne_nil _ ht.text_ne_nil] at hc
      rw [ht.not_space ordinary.notSpace (List.mem_of_getLast? hc)] at hspace
      cases hspace

end Shaping

end Selector.State

/-! ### The root -/

/-- A selector that does not start with any element followed by a class that could match the root. -/
def Selector.BelowRoot (selector : Selector) : Prop :=
  ∀ name argument more, selector = .regular PseudoClass.anyElement :: .relative name argument :: more →
    name ∉ PseudoClass.rootMatching

/-- The first selector of a list is `BelowRoot`. -/
def SelectorList.BelowRoot (list : SelectorList) : Prop :=
  ∀ first, list.head? = some first → Selector.BelowRoot first

namespace Selector

theorem BelowRoot.concat {selector : Selector} {part : Part} (h : BelowRoot selector)
    (hpart : ∀ name argument, part = .relative name argument →
      selector = [.regular PseudoClass.anyElement] → name ∉ PseudoClass.rootMatching) :
    BelowRoot (selector ++ [part]) := by
  intro name argument more heq
  match selector, h, hpart, heq with
  | [], _, _, heq => simp at heq
  | [a], _, hpart, heq =>
    simp only [List.cons_append, List.nil_append, List.cons.injEq] at heq
    exact hpart name argument heq.2.1 (by rw [heq.1])
  | a :: b :: selector, h, _, heq =>
    simp only [List.cons_append, List.cons.injEq] at heq
    exact h name argument selector (by rw [heq.1, heq.2.1])

theorem BelowRoot.nil : BelowRoot [] := by
  intro name argument more heq
  cases heq

/-- At the start of the input, the anchor of a class that could match the root keeps it below. -/
theorem Frame.anchorText_ne_anyElement {f : Frame} {name : Text} (hinput : f.atInputStart = true)
    (hparts : f.parts = []) (hname : name ∈ PseudoClass.rootMatching) :
    f.anchorText name ≠ PseudoClass.anyElement := by
  intro heq
  rw [anchorText] at heq
  split at heq
  · cases heq
  · next hroot =>
    have hbuffer : f.buffer ≠ [] ∧ f.buffer ≠ PseudoClass.anyElement := by
      simpa [hinput, hparts, hname] using hroot
    split at heq
    · cases heq
    · split at heq
      · next hlast => exact hbuffer.1 (List.getLast?_eq_none_iff.1 hlast)
      · split at heq
        · exact hbuffer.1 (List.append_left_eq_self.1 heq)
        · exact hbuffer.2 heq

theorem Frame.Growing.belowRoot_anchor {f : Frame} (h : f.Growing) (name : Text) (argument : SelectorList)
    (hinput : f.atInputStart = true) (hparts : BelowRoot f.parts) :
    BelowRoot ((f.anchor name).parts ++ [.relative name argument]) := by
  rcases f.parts_anchor name with ⟨-, -, hanchor⟩ | ⟨-, hanchor⟩
  · rw [hanchor]
    refine hparts.concat fun _ _ _ heq => ?_
    exact absurd (h.extended (.regular PseudoClass.anyElement) (by simp [heq])) (by simp [Part.isRegular])
  · have hplain : BelowRoot (f.parts ++ [.regular (f.anchorText name)]) := hparts.concat nofun
    rw [hanchor]
    refine hplain.concat fun name' argument' hname heq => ?_
    cases hname
    rw [List.append_eq_singleton_iff] at heq
    rcases heq with ⟨hnil, heq⟩ | ⟨-, heq⟩
    · intro hmem
      exact Frame.anchorText_ne_anyElement hinput hnil hmem (by simpa using heq)
    · simp at heq

theorem Frame.belowRoot_anchor_parts {f : Frame} (name : Text) (hparts : BelowRoot f.parts) :
    BelowRoot (f.anchor name).parts := by
  rcases f.parts_anchor name with ⟨-, -, hanchor⟩ | ⟨-, hanchor⟩
  · rwa [hanchor]
  · rw [hanchor]
    exact hparts.concat nofun

/-- The list of the whole input, where `parts` follow those that are collected: its first selector is
the one that implicit anchors apply to. -/
def Level.Rooted (level : Level) (parts : Selector) : Prop :=
  (level.finished = [] → level.frame.atInputStart = true) ∧
    SelectorList.BelowRoot (level.finished ++ [level.frame.parts ++ parts])

structure State.Rooted (s : State) : Prop where
  level : s.outer = [] → s.level.Rooted []
  outer : ∀ e, s.outer.getLast? = some e → ∀ argument, e.level.Rooted [.relative e.name argument]

namespace Level.Rooted

variable {level : Level} {more : Selector}

/-- Only the first selector of the list matters. -/
theorem of_belowRoot (hinput : level.finished = [] → level.frame.atInputStart = true)
    (hfinished : SelectorList.BelowRoot level.finished)
    (hparts : level.finished = [] → BelowRoot (level.frame.parts ++ more)) : level.Rooted more := by
  refine ⟨hinput, fun first hfirst => ?_⟩
  rw [List.head?_append, Option.or_eq_some_iff] at hfirst
  rcases hfirst with hfirst | ⟨hnil, hfirst⟩
  · exact hfinished first hfirst
  · cases hfirst
    exact hparts (List.head?_eq_none_iff.1 hnil)

theorem finished (h : level.Rooted more) : SelectorList.BelowRoot level.finished := by
  intro first hfirst
  refine h.2 first ?_
  rw [List.head?_append, hfirst]
  rfl

theorem parts (h : level.Rooted more) (hnil : level.finished = []) :
    BelowRoot (level.frame.parts ++ more) := by
  refine h.2 _ ?_
  rw [hnil]
  rfl

theorem map {level' : Level} {more' : Selector} (h : level.Rooted more)
    (hfinished : level'.finished = level.finished)
    (hinput : level'.frame.atInputStart = level.frame.atInputStart)
    (hparts : level.finished = [] → BelowRoot (level.frame.parts ++ more) →
      BelowRoot (level'.frame.parts ++ more')) : level'.Rooted more' := by
  refine of_belowRoot ?_ ?_ ?_
  · rw [hfinished, hinput]
    exact h.1
  · rw [hfinished]
    exact h.finished
  · rw [hfinished]
    exact fun hnil => hparts hnil (h.parts hnil)

theorem belowRoot_selectors (h : level.Rooted []) :
    SelectorList.BelowRoot level.selectors := by
  have hrooted : Level.Rooted { level with frame := { level.frame with parts := level.frame.allParts } } [] := by
    refine h.map rfl rfl fun _ hparts => ?_
    rw [List.append_nil] at hparts ⊢
    show BelowRoot level.frame.allParts
    rcases level.frame.allParts_cases with ⟨-, heq⟩ | ⟨-, heq⟩
    · rwa [heq]
    · rw [heq]
      exact hparts.concat (by simp)
  simpa [Level.selectors] using hrooted.2

end Level.Rooted

namespace State.Rooted

theorem start : State.start.Rooted :=
  ⟨fun _ => .of_belowRoot (fun _ => rfl) nofun fun _ => .nil, nofun⟩

theorem growth {config : Config} {s next : State} {t : Token} (h : s.Rooted)
    (hgrowing : s.mode = .regular → s.frame.Growing) (hgrowth : Growth config s t next) : next.Rooted := by
  cases hgrowth with
  | text outer finished parts input removed mode =>
    refine ⟨fun hnil => ?_, by rw [outer]; exact h.outer⟩
    rw [outer] at hnil
    refine (h.level hnil).map finished input fun _ hparts => ?_
    show BelowRoot (next.frame.parts ++ [])
    rwa [parts]
  | absolute mode argument =>
    refine ⟨fun hnil => (h.level hnil).map rfl rfl fun _ hparts => ?_, h.outer⟩
    rw [List.append_nil] at hparts ⊢
    exact hparts.concat nofun
  | comma mode mark depth regular =>
    have hne := s.level.selectors_ne_nil
    refine ⟨fun hnil => .of_belowRoot (fun h => absurd h hne) ?_ (fun h => absurd h hne), h.outer⟩
    exact (h.level hnil).belowRoot_selectors
  | @close enclosing outer mode mark depth removed stack regular =>
    refine ⟨fun hnil => ?_, fun e he => ?_⟩
    · have hrooted := h.outer enclosing (by rw [stack, show outer = [] from hnil]; rfl) s.level.selectors
      refine hrooted.map rfl rfl fun _ hparts => ?_
      rw [List.append_nil]
      exact hparts
    · cases houter : outer with
      | nil => rw [outer_resume, houter] at he; cases he
      | cons e' outer' =>
        refine h.outer e ?_
        rw [stack, houter, List.getLast?_cons_cons, ← houter]
        exact he
  | @openRelative name _ mode removed opens limit =>
    refine ⟨nofun, fun e he argument => ?_⟩
    cases houter : s.outer with
    | nil =>
      simp only [suspend, houter, List.getLast?_singleton, Option.some.injEq] at he
      subst he
      have hrooted := h.level houter
      refine hrooted.map rfl (by simp [State.frame]) fun hnil hparts => ?_
      rw [List.append_nil] at hparts
      exact (hgrowing mode).belowRoot_anchor name argument (hrooted.1 hnil) hparts
    | cons e' outer' =>
      simp only [suspend, houter, List.getLast?_cons_cons] at he
      rw [← houter] at he
      exact h.outer e he argument
  | openAbsolute mode removed opens remove =>
    refine ⟨fun hnil => (h.level hnil).map rfl (Frame.atInputStart_anchor _ _) fun _ hparts => ?_, h.outer⟩
    rw [List.append_nil] at hparts ⊢
    exact Frame.belowRoot_anchor_parts _ hparts

end State.Rooted

end Selector

/-! ### Compiled lists -/

namespace SelectorList

open Selector State

/-- A compiled list is well shaped at all levels, and its first selector stays below the root. -/
theorem shaped_of_compile {config : Config} {text : Text} {list : SelectorList}
    (h : compile config text = .ok list) :
    list.Everywhere (fun _ => Selector.Shaped) [] ∧ list.BelowRoot := by
  obtain ⟨final, ⟨hshaping, hrooted⟩, hmode, houter, hregular, rfl⟩ :=
    compile_induction_tracked (P := fun s rest => s.Shaping rest ∧ s.Rooted) h ⟨.start, .start⟩ (by
      intro s t rest next htracked hscanned htrimmed hP hmove
      obtain ⟨hshaping, hrooted⟩ := hP
      refine ⟨hshaping.move htracked hscanned.head htrimmed hmove, hrooted.growth ?_ hmove.growth⟩
      exact fun hmode => hshaping.growing (by simp [hmode]))
  have hsound := hshaping.selectors hmode hregular (hshaping.not_space_end hmode)
  refine ⟨everywhere_iff.2 ⟨final.level.selectors_ne_nil, fun selector hmem => hsound selector hmem []⟩, ?_⟩
  exact (hrooted.level houter).belowRoot_selectors

end SelectorList

end CosmeticFilter
