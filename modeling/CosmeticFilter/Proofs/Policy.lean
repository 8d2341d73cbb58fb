import CosmeticFilter.Proofs.Validity

/-!
# What compiled lists keep to

The compiler checks the rules on nesting and placement while it reads tokens, with flags and with the names
of the arguments that are open. `Selector.Lawful` states the rules on the finished tree, for a selector
below the pseudo-classes `names`:

* no `:has()`, `:is()` or `:where()` stands anywhere below a `:has()`;
* the marker of removal ends a selector of the outermost list, after a plain part, and it is the one
  absolute pseudo-class without an argument;
* arguments do not nest deeper than the limit;
* no pseudo-element stands before a `:has()`.

`State.Lawful` carries this along a run: the names of the open arguments are the pseudo-classes that the
innermost list is below. The flags mean what the rules need by `State.Watched`: where the flag for
pseudo-elements is not set, no two colons are next to each other outside of attributes, and after the
marker of removal only white space is read.
-/

namespace CosmeticFilter

open Selector

/-! ### Colons next to each other -/

/-- Two colons stand next to each other outside of all attributes. -/
def Text.DoublesColon (text : Text) : Prop :=
  ∃ before after, text = before ++ Mark.colon :: Mark.colon :: after ∧ (Context.after before).bracket = none

namespace Text

theorem not_doublesColon_nil : ¬ DoublesColon [] := by
  rintro ⟨before, after, h, -⟩
  simp at h

/-- Colons become neighbours only where a text is continued by a colon after a colon. -/
theorem not_doublesColon_append {a w : Text} (ha : ¬ DoublesColon a) (hw : w.count Mark.colon ≤ 1)
    (hjoin : a.getLast? = some Mark.colon → w.head? = some Mark.colon → (Context.after a).bracket ≠ none) :
    ¬ DoublesColon (a ++ w) := by
  rintro ⟨before, after, h, hbracket⟩
  rcases append_eq_split h with ⟨more, hleft, hafter⟩ | ⟨more, hright, -⟩
  · cases more with
    | nil =>
      -- the first colon ends the text `a`, and the second one starts `w`
      obtain ⟨w', rfl⟩ : ∃ w', w = Mark.colon :: w' := ⟨after, by simpa using hafter.symm⟩
      refine hjoin (by simp [hleft]) rfl ?_
      have hne : Mark.colon ≠ Mark.squareLeft := by decide
      rw [hleft, Context.after_concat]
      simp [Context.step, hbracket, hne]
    | cons c more =>
      cases hafter
      exact ha ⟨before, more, hleft, hbracket⟩
  · rw [hright] at hw
    simp [List.count_append] at hw
    omega

theorem count_token_le_one {t : Token} (h : t.Proper) : t.text.count Mark.colon ≤ 1 := by
  by_cases hmem : Mark.colon ∈ t.text
  · rw [h.text_of_mem hmem (by decide)]
    decide
  · rw [List.count_eq_zero_of_not_mem hmem]
    decide

theorem not_doublesColon_anchorText {f : Frame} (name : Text) (h : ¬ DoublesColon f.buffer) :
    ¬ DoublesColon (f.anchorText name) := by
  have hfixed : ∀ w : Text, Mark.colon ∉ w → ¬ DoublesColon w := by
    rintro w hw ⟨before, after, rfl, -⟩
    exact hw (by simp)
  rw [Frame.anchorText]
  split
  · exact hfixed _ (by decide)
  · split
    · exact hfixed _ (by decide)
    · split
      · exact hfixed _ (by decide)
      · split
        · refine not_doublesColon_append h (by decide) fun _ hhead => ?_
          cases hhead
        · exact h

end Text

/-- No plain part of the selector doubles a colon. -/
def Selector.Unmarked (selector : Selector) : Prop := ∀ text, .regular text ∈ selector → ¬ Text.DoublesColon text

namespace Selector

theorem Unmarked.nil : Unmarked [] := by simp [Unmarked]

theorem Unmarked.concat {selector : Selector} {part : Part} (h : Unmarked selector)
    (hpart : ∀ text, part = .regular text → ¬ Text.DoublesColon text) : Unmarked (selector ++ [part]) := by
  intro text hmem
  rcases List.mem_append.1 hmem with hmem | hmem
  · exact h text hmem
  · exact hpart text (List.mem_singleton.1 hmem).symm

theorem Unmarked.anchor {f : Frame} (name : Text) (h : Unmarked f.parts) (hbuffer : ¬ Text.DoublesColon f.buffer) :
    Unmarked (f.anchor name).parts := by
  rcases f.parts_anchor name with ⟨-, -, hparts⟩ | ⟨-, hparts⟩
  · rwa [hparts]
  · rw [hparts]
    refine h.concat fun text heq => ?_
    cases heq
    exact Text.not_doublesColon_anchorText name hbuffer

/-! ### The flags -/

/-- What the flags of the frames mean. -/
structure State.Watched (s : State) (rest : List Token) : Prop where
  blank : s.frame.removed = true → s.mode = .regular ∧ ∀ c ∈ s.frame.buffer, Text.isSpace c = true
  text : s.frame.afterPseudoElement = false → ¬ Text.DoublesColon s.frame.buffer
  ahead : s.mode = .regular → s.frame.afterPseudoElement = false →
    s.frame.buffer.getLast? = some Mark.colon → State.startsWithColon rest = false
  parts : s.frame.afterPseudoElement = false → Unmarked s.frame.parts
  outer : ∀ e ∈ s.outer, e.level.frame.afterPseudoElement = false → Unmarked e.level.frame.parts

namespace State.Watched

variable {config : Config} {s : State} {t : Token} {rest : List Token} {next : Step}

theorem fresh {tokens : List Token} (hparts : s.frame.parts = []) (hbuffer : s.frame.buffer = [])
    (hremoved : s.frame.removed = false)
    (houter : ∀ e ∈ s.outer, e.level.frame.afterPseudoElement = false → Unmarked e.level.frame.parts) :
    s.Watched tokens := by
  refine ⟨fun hremoved' => ?_, fun _ => ?_, fun _ _ hlast => ?_, fun _ => ?_, houter⟩
  · exact absurd (hremoved.symm.trans hremoved') (by simp)
  · rw [hbuffer]
    exact Text.not_doublesColon_nil
  · simp [hbuffer] at hlast
  · rw [hparts]
    exact .nil

theorem start {tokens : List Token} : State.start.Watched tokens := fresh rfl rfl rfl (by simp [State.start])

/-- More text that brings no colon with it, unless an attribute is open. -/
theorem write (h : s.Watched (t :: rest)) (htracked : s.Tracked) (ht : t.Proper) {state : State}
    (hremoved : s.frame.removed = false) (houter : state.outer = s.outer)
    {depth : Nat} (hframe : state.frame = { s.frame.write t.text with parenDepth := depth })
    (hcolon : t.text = [Mark.colon] → s.mode.bracket? ≠ none ∧ state.mode ≠ .regular) :
    state.Watched rest := by
  refine ⟨?_, ?_, ?_, ?_, by rw [houter]; exact h.outer⟩
  · rw [hframe]
    exact fun hremoved' => absurd (hremoved.symm.trans hremoved') (by simp)
  · rw [hframe]
    intro hflag
    refine Text.not_doublesColon_append (h.text hflag) (Text.count_token_le_one ht) fun _ hhead => ?_
    rw [htracked.bracket]
    exact (hcolon (ht.text_of_mem (List.mem_of_head? hhead) (by decide))).1
  · rw [hframe]
    intro hmode _ hlast
    change (s.frame.buffer ++ t.text).getLast? = some Mark.colon at hlast
    rw [List.getLast?_append_of_ne_nil _ ht.text_ne_nil] at hlast
    exact absurd hmode (hcolon (ht.text_of_mem (List.mem_of_getLast? hlast) (by decide))).2
  · rw [hframe]
    exact h.parts

theorem move_space (h : s.Watched (t :: rest)) (hmode : s.mode = .regular)
    (hspace : t.isOf Text.isSpace = true) : (s.write t.text).Watched rest := by
  obtain ⟨c, hc, hspace⟩ := Token.isOf_iff.1 hspace
  have hne : c ≠ Mark.colon := by
    rintro rfl
    cases hspace
  refine ⟨fun hremoved => ⟨hmode, fun d hd => ?_⟩, fun hflag => ?_, fun _ _ hlast => ?_, h.parts, h.outer⟩
  · rcases List.mem_append.1 hd with hd | hd
    · exact (h.blank hremoved).2 d hd
    · rw [hc, List.mem_singleton] at hd
      rw [hd, hspace]
  · refine Text.not_doublesColon_append (h.text hflag) ?_ fun _ hhead => ?_
    · rw [hc]
      exact List.count_le_length
    · rw [hc, List.head?_cons, Option.some.injEq] at hhead
      exact absurd hhead hne
  · change (s.frame.buffer ++ t.text).getLast? = some Mark.colon at hlast
    rw [hc, List.getLast?_concat, Option.some.injEq] at hlast
    exact absurd hlast hne

theorem move_colon (h : s.Watched (t :: rest)) (hmode : s.mode = .regular) (hmark : t.text = [Mark.colon])
    (hremoved : s.frame.removed = false) : (s.copyColon rest).Watched rest := by
  have hframe := frame_copyColon rest s
  refine ⟨?_, ?_, ?_, ?_, h.outer⟩
  · rw [hframe]
    exact fun hremoved' => absurd (hremoved.symm.trans hremoved') (by simp)
  · rw [hframe]
    intro hflag
    have hflag : s.frame.afterPseudoElement = false := (Bool.or_eq_false_iff.1 hflag).1
    -- the colon before would have set the flag, because this one follows it
    have hlast : s.frame.buffer.getLast? ≠ some Mark.colon := by
      intro hlast
      have hcolon := h.ahead hmode hflag hlast
      rw [startsWithColon, Token.spells_iff.2 hmark] at hcolon
      cases hcolon
    show ¬ Text.DoublesColon (s.frame.buffer ++ s.colonText)
    refine Text.not_doublesColon_append (h.text hflag) ?_ fun hlast' => absurd hlast' hlast
    rw [colonText]
    split <;> decide
  · rw [hframe]
    exact fun _ hflag _ => (Bool.or_eq_false_iff.1 hflag).2
  · rw [hframe]
    exact fun hflag => h.parts (Bool.or_eq_false_iff.1 hflag).1

/-- After the marker of removal no parenthesis is open. -/
theorem parenDepth_eq_zero (h : s.Watched (t :: rest)) (htracked : s.Tracked)
    (hremoved : s.frame.removed = true) : s.frame.parenDepth = 0 := by
  have hno : ∀ d, Text.isSpace d = false → d ∉ s.frame.buffer := by
    intro d hd hmem
    have hspace := (h.blank hremoved).2 d hmem
    rw [hd] at hspace
    cases hspace
  rw [← htracked.parens]
  show (s.frame.buffer.foldl Context.step {}).parenDepth = Context.parenDepth {}
  exact (Context.foldl_step_plain rfl ⟨hno _ rfl, hno _ rfl, hno _ rfl⟩).2

theorem move (h : s.Watched (t :: rest)) (htracked : s.Tracked) (ht : t.Proper)
    (hmove : Move config s t rest next) : next.state.Watched (rest.drop next.skip) := by
  have hflag : s.mode ≠ .regular → s.frame.removed = false := by
    intro hmode
    by_contra hremoved
    exact hmode (h.blank (by simpa using hremoved)).1
  cases hmove with
  | inAttribute mode read =>
    have hremoved := hflag (by simp [mode])
    rcases readAttribute_cases read with ⟨-, rfl⟩ | ⟨hmark, -, rfl⟩
    · exact h.write htracked ht hremoved rfl rfl fun _ => ⟨by simp [mode, Mode.bracket?], by simp⟩
    · exact h.write htracked ht hremoved rfl rfl fun hcolon => absurd (hmark.symm.trans hcolon) (by decide)
  | inArgument mode read =>
    have hremoved := hflag (by simp [mode])
    rcases readArgument_cases (read ⟨[], config⟩) with ⟨a', -, -, rfl⟩ | ⟨-, -, rfl⟩
    · refine ⟨fun hremoved' => ?_, h.text, fun hmode => ?_, h.parts, h.outer⟩
      · exact absurd (hremoved.symm.trans hremoved') (by simp)
      · cases hmode
    · have hbuffer := htracked.argument _ mode
      refine ⟨fun _ => ⟨rfl, fun c hc => ?_⟩, h.text, fun _ _ hlast => ?_, fun hmarked => ?_, h.outer⟩
      · simp [hbuffer] at hc
      · simp [hbuffer] at hlast
      · exact (h.parts hmarked).concat (by simp)
  | comma mode mark depth regular => exact fresh rfl rfl rfl h.outer
  | @close enclosing outer mode mark depth removed stack regular =>
    have hbuffer : (s.resume enclosing outer).frame.buffer = [] := (htracked.outer enclosing (by simp [stack])).1
    refine ⟨fun _ => ⟨mode, fun c hc => ?_⟩, fun _ => ?_, fun _ _ hlast => ?_, fun hmarked => ?_, fun e he => ?_⟩
    · rw [hbuffer] at hc
      cases hc
    · rw [hbuffer]
      exact Text.not_doublesColon_nil
    · rw [hbuffer] at hlast
      cases hlast
    · exact (h.outer enclosing (by simp [stack]) hmarked).concat (by simp)
    · rw [outer_resume] at he
      exact h.outer e (by simp [stack, he])
  | colon mode mark removed plain => exact h.move_colon mode mark removed
  | openRelative mode mark removed opens limit =>
    refine fresh rfl rfl rfl fun e he => ?_
    rcases List.mem_cons.1 he with rfl | he
    · intro hmarked
      have hmarked : s.frame.afterPseudoElement = false := by simpa using hmarked
      exact (h.parts hmarked).anchor _ (h.text hmarked)
    · exact h.outer e he
  | openAbsolute mode mark removed opens remove =>
    refine ⟨fun hremoved => ?_, fun _ => ?_, fun hmode => ?_, fun hmarked => ?_, h.outer⟩
    · simp [removed] at hremoved
    · simpa using Text.not_doublesColon_nil
    · cases hmode
    · have hmarked : s.frame.afterPseudoElement = false := by simpa using hmarked
      exact (h.parts hmarked).anchor _ (h.text hmarked)
  | keepSpace mode space kept => exact h.move_space mode space
  | dropSpace mode space depth dropped =>
    refine ⟨h.blank, h.text, fun _ _ hlast => ?_, h.parts, h.outer⟩
    have hempty : s.frame.isEmpty = false := Frame.isEmpty_of_buffer fun hnil => by simp [hnil] at hlast
    exact (of_not_continuesAfterSpace (dropped hempty)).2.1
  | plain mode removed ordinary =>
    have hremoved : s.frame.removed = false := by
      rcases removed with hremoved | hcomma
      · exact hremoved
      · by_contra hremoved
        have hdepth := h.parenDepth_eq_zero htracked (by simpa using hremoved)
        have := ordinary.notComma hcomma
        omega
    obtain ⟨depth, mode', -, heq⟩ := readPlain_eq s t
    rw [heq]
    exact h.write htracked ht hremoved rfl rfl fun hcolon => absurd hcolon ordinary.notColon

end State.Watched

/-! ### The rules -/

/-- The rules for a selector below the pseudo-classes `names`, the innermost first. -/
structure Lawful (config : Config) (names : List Text) (selector : Selector) : Prop where
  /-- Arguments do not nest deeper than the limit. -/
  depth : names.length ≤ config.maxDepth
  /-- What may not stand inside `:has()` does not stand anywhere below it. -/
  inside : ∀ name argument, .relative name argument ∈ selector → name ∈ PseudoClass.forbiddenInsideHas →
    ∀ outer ∈ names, outer ∉ PseudoClass.hasNames
  /-- Only the marker of removal has no argument. -/
  argument : ∀ name argument, .absolute name argument ∈ selector →
    (name = PseudoClass.removeName ↔ argument = [])
  /-- The marker of removal ends a selector of the outermost list and follows a plain part. -/
  remove : ∀ before argument after, selector = before ++ .absolute PseudoClass.removeName argument :: after →
    names = [] ∧ after = [] ∧ ∃ text, .regular text ∈ before
  /-- No pseudo-element stands before `:has()`. -/
  pseudoElement : ∀ before name argument after, selector = before ++ .relative name argument :: after →
    name ∈ PseudoClass.hasNames → Unmarked before

/-- The marker of removal is not among the parts. -/
def Kept (selector : Selector) : Prop := ∀ argument, .absolute PseudoClass.removeName argument ∉ selector

theorem Kept.concat {selector : Selector} {part : Part} (h : Kept selector)
    (hpart : ∀ argument, part ≠ .absolute PseudoClass.removeName argument) : Kept (selector ++ [part]) := by
  intro argument hmem
  rcases List.mem_append.1 hmem with hmem | hmem
  · exact h argument hmem
  · exact hpart argument (List.mem_singleton.1 hmem).symm

namespace Lawful

variable {config : Config} {names : List Text} {selector : Selector} {part : Part}

theorem nil (h : names.length ≤ config.maxDepth) : Lawful config names [] :=
  ⟨h, by simp, by simp, by simp, by simp⟩

/-- A selector without the marker of removal can be continued by a part that keeps the rules. -/
theorem concat (h : Lawful config names selector) (hkept : Kept selector)
    (hinside : ∀ name argument, part = .relative name argument → name ∈ PseudoClass.forbiddenInsideHas →
      ∀ outer ∈ names, outer ∉ PseudoClass.hasNames)
    (hargument : ∀ name argument, part = .absolute name argument →
      (name = PseudoClass.removeName ↔ argument = []))
    (hremove : ∀ argument, part = .absolute PseudoClass.removeName argument →
      names = [] ∧ ∃ text, .regular text ∈ selector)
    (hpseudo : ∀ name argument, part = .relative name argument → name ∈ PseudoClass.hasNames →
      Unmarked selector) : Lawful config names (selector ++ [part]) := by
  refine ⟨h.depth, ?_, ?_, ?_, ?_⟩
  · intro name argument hmem
    rcases List.mem_append.1 hmem with hmem | hmem
    · exact h.inside name argument hmem
    · exact hinside name argument (List.mem_singleton.1 hmem).symm
  · intro name argument hmem
    rcases List.mem_append.1 hmem with hmem | hmem
    · exact h.argument name argument hmem
    · exact hargument name argument (List.mem_singleton.1 hmem).symm
  · intro before argument after heq
    rcases append_eq_split heq with ⟨more, hmore, -⟩ | ⟨more, hmore, rfl⟩
    · exact absurd (by simp [hmore]) (hkept argument)
    · obtain ⟨rfl, hpart, rfl⟩ := singleton_eq_split hmore
      obtain ⟨hnames, htext⟩ := hremove argument hpart.symm
      exact ⟨hnames, rfl, by simpa using htext⟩
  · intro before name argument after heq hname
    rcases append_eq_split heq with ⟨more, hmore, -⟩ | ⟨more, hmore, rfl⟩
    · exact h.pseudoElement before name argument more hmore hname
    · obtain ⟨rfl, hpart, rfl⟩ := singleton_eq_split hmore
      simpa using hpseudo name argument hpart.symm hname

theorem regular (h : Lawful config names selector) (hkept : Kept selector) (text : Text) :
    Lawful config names (selector ++ [.regular text]) :=
  h.concat hkept nofun nofun nofun nofun

end Lawful

/-! ### The rules along a run -/

/-- The selectors of a list below `names` keep the rules, those that are nested in it included. -/
structure Level.Lawful (config : Config) (names : List Text) (level : Level) : Prop where
  finished : ∀ selector ∈ level.finished, Selector.Everywhere (Selector.Lawful config) names selector
  parts : Selector.Everywhere (Selector.Lawful config) names level.frame.parts
  kept : level.frame.removed = false → Kept level.frame.parts

/-- The innermost list keeps the rules below the pseudo-classes whose arguments are open, and so do the
lists that they interrupt. -/
structure State.Lawful (config : Config) (s : State) : Prop where
  level : s.level.Lawful config s.openNames
  argument : ∀ a, s.mode = .argument a → s.frame.removed = false ∧
    (a.name = PseudoClass.removeName → s.outer = [])
  outer : ∀ e outer, e :: outer <:+ s.outer → e.level.Lawful config (outer.map Suspended.name) ∧
    e.level.frame.removed = false ∧
    (e.name ∈ PseudoClass.forbiddenInsideHas →
      ∀ name ∈ outer.map Suspended.name, name ∉ PseudoClass.hasNames) ∧
    (e.name ∈ PseudoClass.hasNames → e.level.frame.afterPseudoElement = false)

namespace Level.Lawful

variable {config : Config} {names : List Text} {level : Level}

/-- A selector that is just starting keeps the rules if the limit allows it to be here. -/
theorem fresh (hfinished : ∀ selector ∈ level.finished, Selector.Everywhere (Selector.Lawful config) names selector)
    (hdepth : names.length ≤ config.maxDepth) (hparts : level.frame.parts = []) : level.Lawful config names := by
  refine ⟨hfinished, ?_, fun _ => ?_⟩
  · rw [hparts]
    exact ⟨.nil hdepth, by simp⟩
  · rw [hparts]
    simp [Kept]

theorem concat (h : level.Lawful config names) (hkept : Kept level.frame.parts) {f : Frame} {part : Part}
    (hf : f.parts = level.frame.parts ++ [part]) (hpart : part.Everywhere (Selector.Lawful config) names)
    (hself : Selector.Lawful config names (level.frame.parts ++ [part]))
    (hremoved : f.removed = false → ∀ argument, part ≠ .absolute PseudoClass.removeName argument) :
    Level.Lawful config names { level with frame := f } := by
  refine ⟨h.finished, ?_, fun hfalse => ?_⟩
  · rw [hf]
    exact h.parts.concat hself hpart
  · rw [hf]
    exact hkept.concat (hremoved hfalse)

theorem anchor (h : level.Lawful config names) (hremoved : level.frame.removed = false) (name : Text) :
    Level.Lawful config names { level with frame := level.frame.anchor name } := by
  have hkept := h.kept hremoved
  rcases level.frame.parts_anchor name with ⟨-, -, hparts⟩ | ⟨-, hparts⟩
  · refine ⟨h.finished, ?_, fun _ => ?_⟩
    · rw [hparts]
      exact h.parts
    · rw [hparts]
      exact hkept
  · exact h.concat hkept hparts nofun (h.parts.1.regular hkept _) fun _ => nofun

/-- At the end of a selector, its text is its last part. After the marker of removal there is none, because
white space does not end a text. -/
theorem allParts (h : level.Lawful config names)
    (hblank : level.frame.removed = true → ∀ c ∈ level.frame.buffer, Text.isSpace c = true)
    (hlast : ∀ c, level.frame.buffer.getLast? = some c → Text.isSpace c = false) :
    Selector.Everywhere (Selector.Lawful config) names level.frame.allParts := by
  rcases level.frame.allParts_cases with ⟨-, hparts⟩ | ⟨hne, hparts⟩
  · rw [hparts]
    exact h.parts
  · have hkept : Kept level.frame.parts := by
      refine h.kept ?_
      by_contra hremoved
      have hspace := hblank (by simpa using hremoved) _ (List.getLast_mem hne)
      rw [hlast _ (List.getLast?_eq_getLast_of_ne_nil hne)] at hspace
      cases hspace
    rw [hparts]
    exact h.parts.concat (h.parts.1.regular hkept _) (by simp [Part.Everywhere])

end Level.Lawful

namespace State.Lawful

variable {config : Config} {s next : State} {t : Token} {rest : List Token}

theorem start : State.start.Lawful config :=
  ⟨.fresh (by simp [State.start]) (Nat.zero_le _) rfl, nofun, by simp [State.start]⟩

theorem selectors (h : s.Lawful config) (hwatched : s.Watched rest)
    (hlast : ∀ c, s.frame.buffer.getLast? = some c → Text.isSpace c = false) :
    ∀ selector ∈ s.level.selectors, Selector.Everywhere (Selector.Lawful config) s.openNames selector := by
  intro selector hmem
  rcases List.mem_append.1 hmem with hmem | hmem
  · exact h.level.finished selector hmem
  · rw [List.mem_singleton.1 hmem]
    exact h.level.allParts (fun hremoved => (hwatched.blank hremoved).2) hlast

theorem growth_close (h : s.Lawful config) (hwatched : s.Watched (t :: rest)) (hmode : s.mode = .regular)
    (hlast : ∀ c, s.frame.buffer.getLast? = some c → Text.isSpace c = false)
    {enclosing : Suspended} {outer : List Suspended} (hstack : s.outer = enclosing :: outer) :
    (s.resume enclosing outer).Lawful config := by
  obtain ⟨hlevel, hremoved, hinside, hpseudo⟩ := h.outer enclosing outer (hstack ▸ List.suffix_refl _)
  have hkept := hlevel.kept hremoved
  have hargument := h.selectors hwatched hlast
  have hnames : s.openNames = enclosing.name :: outer.map Suspended.name := by simp [State.openNames, hstack]
  refine ⟨hlevel.concat hkept rfl ?_ ?_ (fun _ => nofun), by simp [hmode], fun e outer' hsuffix => ?_⟩
  · intro name argument heq
    cases heq
    rw [hnames] at hargument
    exact SelectorList.everywhere_iff.2 ⟨s.level.selectors_ne_nil, hargument⟩
  · refine hlevel.parts.1.concat hkept ?_ nofun nofun ?_
    · intro name argument heq
      cases heq
      exact hinside
    · intro name argument heq hname
      cases heq
      exact hwatched.outer enclosing (by simp [hstack]) (hpseudo hname)
  · exact h.outer e outer' (by rw [hstack]; exact hsuffix.trans (List.suffix_cons _ _))

theorem growth (h : s.Lawful config) (hwatched : s.Watched (t :: rest)) (hshaping : s.Shaping (t :: rest))
    (ht : t.Proper) (hgrowth : Growth config s t next) : next.Lawful config := by
  cases hgrowth with
  | text outer finished parts input removed mode =>
    refine ⟨⟨?_, ?_, ?_⟩, fun a ha => ?_, by rw [outer]; exact h.outer⟩
    · rw [finished, State.openNames, outer]
      exact h.level.finished
    · show Selector.Everywhere _ _ next.frame.parts
      rw [parts, State.openNames, outer]
      exact h.level.parts
    · show next.frame.removed = false → Kept next.frame.parts
      rw [parts, removed]
      exact h.level.kept
    · obtain ⟨b, hb, hname⟩ := mode a ha
      rw [removed, outer, ← hname]
      exact h.argument b hb
  | @absolute a mode argument =>
    obtain ⟨hremoved, hremove⟩ := h.argument a mode
    have hkept := h.level.kept hremoved
    obtain ⟨text, more, hparts, -⟩ := ((hshaping.anchored a mode).1.sound []).1.starts
    refine ⟨h.level.concat hkept rfl nofun ?_ ?_, nofun, h.outer⟩
    · refine h.level.parts.1.concat hkept nofun ?_ ?_ nofun
      · intro name argument' heq
        cases heq
        exact argument
      · intro argument' heq
        obtain ⟨hname, -⟩ := Part.absolute.inj heq
        refine ⟨by simp [State.openNames, hremove hname], text, ?_⟩
        show .regular text ∈ s.frame.parts
        rw [hparts]
        simp
    · intro hfalse argument' heq
      obtain ⟨hname, -⟩ := Part.absolute.inj heq
      simp [hname] at hfalse
  | comma mode mark depth regular =>
    have hfinished := h.selectors hwatched (hshaping.not_space ht mode depth (.inl mark))
    exact ⟨.fresh hfinished h.level.parts.1.depth rfl, by simp [mode], h.outer⟩
  | close mode mark depth removed stack regular =>
    exact h.growth_close hwatched mode (hshaping.not_space ht mode depth (.inr mark)) stack
  | @openRelative name _ mode removed opens limit =>
    refine ⟨.fresh (by simp) ?_ rfl, by simp [mode], fun e outer' hsuffix => ?_⟩
    · simpa [State.openNames, State.depth, suspend] using limit
    · rcases List.suffix_cons_iff.1 hsuffix with heq | hsuffix
      · cases heq
        exact ⟨h.level.anchor removed name, by simpa using removed, opens.allowed,
          fun hname => by simpa using opens.placed hname⟩
      · exact h.outer e outer' hsuffix
  | @openAbsolute name _ mode removed opens remove =>
    refine ⟨h.level.anchor removed name, ?_, h.outer⟩
    rintro a ha
    cases ha
    exact ⟨by simpa using removed, fun hname => (remove hname).1⟩

end State.Lawful

end Selector

/-! ### Depth -/

mutual

theorem Part.depth_le {config : Config} {names : List Text} (part : Part) (hnames : names.length ≤ config.maxDepth)
    (h : part.Everywhere (Lawful config) names) : names.length + part.depth ≤ config.maxDepth := by
  match part, h with
  | .regular text, _ => simpa [depth] using hnames
  | .absolute name argument, _ => simpa [depth] using hnames
  | .relative name argument, h =>
    obtain ⟨hne, hselectors⟩ := SelectorList.everywhere_iff.1 (h name argument rfl)
    have hbelow : (name :: names).length ≤ config.maxDepth := by
      obtain ⟨selector, hselector⟩ := List.exists_mem_of_ne_nil argument hne
      exact (hselectors selector hselector).1.depth
    have hargument := Part.depthOfLists_le argument hbelow hselectors
    rw [depth]
    simp only [List.length_cons] at hargument
    omega

theorem Part.depthOfParts_le {config : Config} {names : List Text} (parts : List Part)
    (hnames : names.length ≤ config.maxDepth) (h : ∀ part ∈ parts, part.Everywhere (Lawful config) names) :
    names.length + depthOfParts parts ≤ config.maxDepth := by
  match parts, h with
  | [], _ => simpa [depthOfParts] using hnames
  | part :: parts, h =>
    have hpart := Part.depth_le part hnames (h part (by simp))
    have hparts := Part.depthOfParts_le parts hnames fun p hp => h p (by simp [hp])
    rw [depthOfParts]
    omega

theorem Part.depthOfLists_le {config : Config} {names : List Text} (list : List (List Part))
    (hnames : names.length ≤ config.maxDepth)
    (h : ∀ selector ∈ list, Selector.Everywhere (Lawful config) names selector) :
    names.length + depthOfLists list ≤ config.maxDepth := by
  match list, h with
  | [], _ => simpa [depthOfLists] using hnames
  | selector :: list, h =>
    have hselector := Part.depthOfParts_le selector hnames (h selector (by simp)).2
    have hlist := Part.depthOfLists_le list hnames fun s hs => h s (by simp [hs])
    rw [depthOfLists]
    omega

end

namespace SelectorList

theorem lawful_of_compile {config : Config} {text : Text} {list : SelectorList}
    (h : compile config text = .ok list) : list.Everywhere (Lawful config) [] := by
  obtain ⟨final, ⟨hshaping, hwatched, hlawful⟩, hmode, houter, -, rfl⟩ :=
    compile_induction_tracked
      (P := fun s rest => s.Shaping rest ∧ s.Watched rest ∧ s.Lawful config) h ⟨.start, .start, .start⟩ (by
        intro s t rest next htracked hscanned htrimmed hP hmove
        obtain ⟨hshaping, hwatched, hlawful⟩ := hP
        exact ⟨hshaping.move htracked hscanned.head htrimmed hmove, hwatched.move htracked hscanned.head hmove,
          hlawful.growth hwatched hshaping hscanned.head hmove.growth⟩)
  have hfinished := hlawful.selectors hwatched (hshaping.not_space_end hmode)
  rw [State.openNames, houter] at hfinished
  exact everywhere_iff.2 ⟨Level.selectors_ne_nil _, hfinished⟩

/-- The rules hold at every level of a list that is returned, and its depth is within the limit. -/
theorem parse_keeps_rules {config : Config} {text : Text} {list : SelectorList}
    (h : parse config text = .ok list) :
    list.Everywhere (Lawful config) [] ∧ Part.depthOfLists list ≤ config.maxDepth := by
  have hlawful := lawful_of_compile (compile_of_parse h)
  have hdepth := Part.depthOfLists_le list (Nat.zero_le _) (everywhere_iff.1 hlawful).2
  exact ⟨hlawful, by simpa using hdepth⟩

theorem parse_keeps_rules_removal :
    ∃ list, parse .standard "a:not(b:has(> c)):contains(x), d::before + e:remove() ".toList = .ok list ∧
      list.Everywhere (Lawful .standard) [] ∧ Part.depthOfLists list ≤ Config.standard.maxDepth := by
  have h : parse .standard "a:not(b:has(> c)):contains(x), d::before + e:remove() ".toList =
      .ok [[.regular ['a'], .relative "not".toList [[.regular ['b'], .relative "has".toList [[.regular "> c".toList]]]],
          .absolute "contains".toList ['x']],
        [.regular "d::before + e".toList, .absolute "remove".toList []]] :=
    (parse_eq_compile _ _).trans (eq_ok_of_toOption (by decide +kernel))
  exact ⟨_, h, parse_keeps_rules h⟩

end SelectorList

end CosmeticFilter
