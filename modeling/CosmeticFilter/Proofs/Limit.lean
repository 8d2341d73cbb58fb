import CosmeticFilter.Proofs.Extension
import CosmeticFilter.Proofs.Policy
import CosmeticFilter.Proofs.Replay
import CosmeticFilter.Proofs.Turns
import CosmeticFilter.Stylesheet.Parser

/-!
# The limit of depth

The compiler tests its limit when the argument of a relative pseudo-class is opened, before it knows what the
argument holds. `depth_limit_exact` says that this is as good as measuring the finished tree: a list is
returned under a limit exactly if some limit returns it and it is no deeper than the limit, and a stylesheet
that is compiled under a limit has the same rules under every higher one.

A state has a `height`, the depth of the tree that it would give if all its open arguments ended at once. No
move lowers it (`Move.height_le`), and opening an argument raises it at least to the number of arguments that
are open. So whatever a run opens shows in the depth of its result.

Under a higher limit a computation does the same or has met a violation (`Raises`). Of a stylesheet this
keeps the fault of every candidate that is refused, and with it the brace that is chosen.
-/

namespace CosmeticFilter

/-! ### The height of a state -/

namespace Part

theorem depthOfParts_append (a b : Selector) :
    depthOfParts (a ++ b) = max (depthOfParts a) (depthOfParts b) := by
  induction a with
  | nil => simp [depthOfParts]
  | cons part a ih => rw [List.cons_append, depthOfParts, depthOfParts, ih, Nat.max_assoc]

theorem depthOfLists_append (a b : SelectorList) :
    depthOfLists (a ++ b) = max (depthOfLists a) (depthOfLists b) := by
  induction a with
  | nil => simp [depthOfLists]
  | cons selector a ih => rw [List.cons_append, depthOfLists, depthOfLists, ih, Nat.max_assoc]

@[simp] theorem depthOfParts_singleton (part : Part) : depthOfParts [part] = part.depth := by
  simp [depthOfParts]

@[simp] theorem depthOfLists_singleton (selector : Selector) : depthOfLists [selector] = depthOfParts selector := by
  simp [depthOfLists]

end Part

namespace Selector

/-- The depth of what a list has collected. -/
def Level.height (level : Level) : Nat :=
  max (Part.depthOfLists level.finished) (Part.depthOfParts level.frame.parts)

/-- The height of a list inside the lists that it interrupts, the innermost first. -/
def heightUnder (height : Nat) : List Suspended → Nat
  | [] => height
  | e :: outer => heightUnder (max (height + 1) e.level.height) outer

/-- The depth of the tree that a state gives if all its open arguments end. -/
def State.height (s : State) : Nat := heightUnder s.level.height s.outer

/-- Plain parts add nothing to the depth. -/
theorem depthOfParts_concat_regular (parts : Selector) (text : Text) :
    Part.depthOfParts (parts ++ [.regular text]) = Part.depthOfParts parts := by
  rw [Part.depthOfParts_append]
  simp [Part.depth]

theorem Frame.depthOfParts_allParts (f : Frame) : Part.depthOfParts f.allParts = Part.depthOfParts f.parts := by
  rcases f.allParts_cases with ⟨-, hparts⟩ | ⟨-, hparts⟩
  · rw [hparts]
  · rw [hparts, depthOfParts_concat_regular]

theorem Frame.depthOfParts_anchor (f : Frame) (name : Text) :
    Part.depthOfParts (f.anchor name).parts = Part.depthOfParts f.parts := by
  rcases f.parts_anchor name with ⟨-, -, hparts⟩ | ⟨-, hparts⟩
  · rw [hparts]
  · rw [hparts, depthOfParts_concat_regular]

theorem Level.depthOfLists_selectors (level : Level) : Part.depthOfLists level.selectors = level.height := by
  rw [Level.selectors, Part.depthOfLists_append, Part.depthOfLists_singleton, Frame.depthOfParts_allParts]
  rfl

theorem heightUnder_mono {a b : Nat} (h : a ≤ b) (outer : List Suspended) :
    heightUnder a outer ≤ heightUnder b outer := by
  induction outer generalizing a b with
  | nil => exact h
  | cons e outer ih =>
    apply ih
    omega

/-- Every list that is interrupted counts. -/
theorem length_le_heightUnder (height : Nat) (outer : List Suspended) :
    height + outer.length ≤ heightUnder height outer := by
  induction outer generalizing height with
  | nil => exact Nat.le_refl _
  | cons e outer ih =>
    have hrest := ih (max (height + 1) e.level.height)
    rw [heightUnder, List.length_cons]
    omega

namespace State

variable {config config' : Config} {s final : State} {t : Token} {rest tokens : List Token}

theorem height_suspend (s : State) (name : Text) :
    (s.suspend name).height = heightUnder (max 1 s.level.height) s.outer := by
  have hlevel : Level.height { s.level with frame := s.frame.anchor name } = s.level.height := by
    unfold Level.height
    rw [Frame.depthOfParts_anchor]
    rfl
  show heightUnder (max (0 + 1) (Level.height { s.level with frame := s.frame.anchor name })) s.outer = _
  rw [hlevel]

/-- What has been opened shows. -/
theorem depth_lt_height_suspend (s : State) (name : Text) : s.depth + 1 ≤ (s.suspend name).height := by
  have hlength := length_le_heightUnder (max 1 s.level.height) s.outer
  rw [height_suspend]
  unfold depth
  omega

/-- The height depends on the depth of the parts only, not on their texts. -/
theorem height_eq {next : State} (houter : next.outer = s.outer) (hfinished : next.level.finished = s.level.finished)
    (hparts : Part.depthOfParts next.frame.parts = Part.depthOfParts s.frame.parts) : next.height = s.height := by
  have hlevel : next.level.height = s.level.height := by
    unfold Level.height
    rw [hfinished]
    exact congrArg (max _) hparts
  unfold height
  rw [houter, hlevel]

/-- No move lowers the height, and only the opening of an argument raises it. -/
theorem Growth.height_le {next : State} (h : Growth config s t next) : s.height ≤ next.height := by
  cases h with
  | text outer finished parts input removed mode =>
    exact (height_eq outer finished (by rw [parts])).ge
  | @absolute a mode argument =>
    have hparts : Part.depthOfParts (s.endArgument a).frame.parts = Part.depthOfParts s.frame.parts := by
      rw [parts_endArgument, Part.depthOfParts_append]
      simp [Part.depth]
    have hheight : (s.endArgument a).height = s.height := height_eq rfl rfl hparts
    exact hheight.ge
  | comma mode mark depth regular =>
    apply Nat.le_of_eq
    have hlevel : s.nextSelector.level.height = s.level.height := by
      rw [← s.level.depthOfLists_selectors]
      show max (Part.depthOfLists s.level.selectors) (Part.depthOfParts []) = _
      simp [Part.depthOfParts]
    unfold height
    rw [hlevel]
    rfl
  | @close enclosing outer mode mark depth removed stack regular =>
    apply Nat.le_of_eq
    have hlevel : (s.resume enclosing outer).level.height = max (s.level.height + 1) enclosing.level.height := by
      show max _ (Part.depthOfParts (enclosing.level.frame.parts ++ [.relative enclosing.name s.level.selectors])) = _
      rw [Part.depthOfParts_append, Part.depthOfParts_singleton, Part.depth, Level.depthOfLists_selectors]
      show max (Part.depthOfLists enclosing.level.finished) _ = max _ (max _ _)
      omega
    unfold height
    rw [hlevel, stack]
    rfl
  | @openRelative name rest mode removed opens limit =>
    rw [height_suspend]
    exact heightUnder_mono (Nat.le_max_right _ _) s.outer
  | @openAbsolute name rest mode removed opens remove =>
    have hheight : (s.openArgument name).height = s.height :=
      height_eq rfl rfl (Frame.depthOfParts_anchor s.frame name)
    exact hheight.ge

theorem Move.height_le {next : Step} (h : Move config s t rest next) : s.height ≤ next.state.height :=
  h.growth.height_le

theorem Reaches.height_le (h : Reaches config s tokens final) : s.height ≤ final.height := by
  induction h with
  | refl s => exact Nat.le_refl _
  | step hmove h ih => exact Nat.le_trans hmove.height_le ih

/-! ### Runs under another limit -/

theorem Move.of_height_le {next : Step} (h : Move config s t rest next)
    (hheight : next.state.height ≤ config'.maxDepth) : Move config' s t rest next := by
  cases h with
  | inAttribute mode read => exact .inAttribute mode read
  | inArgument mode read => exact .inArgument mode read
  | comma mode mark depth regular => exact .comma mode mark depth regular
  | close mode mark depth removed stack regular => exact .close mode mark depth removed stack regular
  | colon mode mark removed plain => exact .colon mode mark removed plain
  | openRelative mode mark removed opens limit =>
    exact .openRelative mode mark removed opens (Nat.le_trans (depth_lt_height_suspend s _) hheight)
  | openAbsolute mode mark removed opens remove => exact .openAbsolute mode mark removed opens remove
  | keepSpace mode space kept => exact .keepSpace mode space kept
  | dropSpace mode space depth dropped => exact .dropSpace mode space depth dropped
  | plain mode removed ordinary => exact .plain mode removed ordinary

/-- A limit that the result of a run keeps is kept all the way. -/
theorem Reaches.of_height_le (h : Reaches config s tokens final) (hheight : final.height ≤ config'.maxDepth) :
    Reaches config' s tokens final := by
  induction h with
  | refl s => exact .refl s
  | step hmove h ih => exact .step (hmove.of_height_le (Nat.le_trans h.height_le hheight)) (ih hheight)

end State

end Selector

namespace SelectorList

open Selector

variable {config config' : Config} {text : Text} {list : SelectorList}

theorem compile_of_depth_le (h : compile config text = .ok list)
    (hdepth : Part.depthOfLists list ≤ config'.maxDepth) : compile config' text = .ok list := by
  obtain ⟨hne, final, hrun, hmode, houter, hregular, rfl⟩ := compile_eq_ok_iff.1 h
  have hheight : final.height ≤ config'.maxDepth := by
    unfold State.height
    rwa [houter, heightUnder, ← Level.depthOfLists_selectors]
  have hreaches : State.Reaches config .start (Token.scan (Text.trimSpace text)) final := State.reaches_of_run hrun
  exact compile_eq_ok_iff.2 ⟨hne, final, (hreaches.of_height_le hheight).run_eq, hmode, houter, hregular, rfl⟩

/-- A list is no deeper than the limit under which it was compiled. -/
theorem depth_le_of_compile (h : compile config text = .ok list) : Part.depthOfLists list ≤ config.maxDepth := by
  have hdepth := Part.depthOfLists_le list (Nat.zero_le _) (everywhere_iff.1 (lawful_of_compile h)).2
  simpa using hdepth

end SelectorList

/-! ### Higher limits -/

/-- The second computation does what the first one does, unless the first one stops at a violation. -/
def Raises {α : Type} (x y : Except Fault α) : Prop := Violates x ∨ y = x

section

variable {α β : Type} {x y : Except Fault α}

theorem Raises.refl (x : Except Fault α) : Raises x x := .inr rfl

theorem Raises.bind {f g : α → Except Fault β} (h : Raises x y) (hf : ∀ a, Raises (f a) (g a)) :
    Raises (x.bind f) (y.bind g) := by
  rcases h with hviolates | rfl
  · exact .inl (violates_bind_iff.2 (.inl hviolates))
  · cases y with
    | error fault => exact .refl _
    | ok a => exact hf a

end

namespace Selector.State

variable {config config' : Config} {selector : Text} {s : State} {t : Token} {rest : List Token}
variable (hle : config.maxDepth ≤ config'.maxDepth)

include hle

theorem raises_openExtended (name : Text) (kind : PseudoClass.Kind) :
    Raises (s.openExtended ⟨selector, config⟩ name kind) (s.openExtended ⟨selector, config'⟩ name kind) := by
  cases kind with
  | absolute => exact .refl _
  | relative =>
    show Raises (s.openRelative _ name) (s.openRelative _ name)
    unfold openRelative
    dsimp only
    by_cases hdeep : config.maxDepth < s.depth + 1
    · rw [if_pos hdeep]
      exact .inl (violates_violation _)
    · rw [if_neg hdeep, if_neg (by omega)]
      exact .refl _

theorem raises_readColon : Raises (s.readColon ⟨selector, config⟩ rest) (s.readColon ⟨selector, config'⟩ rest) := by
  unfold readColon
  split
  · exact .refl _
  · next name kind hnamed =>
    split
    · exact .refl _
    · apply (Raises.refl _).bind
      intro _
      apply (Raises.refl _).bind
      intro _
      split
      · exact (raises_openExtended hle name kind).bind fun _ => .refl _
      · exact .refl _

theorem raises_step :
    Raises (s.step ⟨selector, config⟩ t rest) (s.step ⟨selector, config'⟩ t rest) := by
  unfold step
  split
  · exact .refl _
  · exact .refl _
  · apply (Raises.refl _).bind
    intro _
    -- only a colon asks for the limit
    have hend : s.readEnd? ⟨selector, config'⟩ t = s.readEnd? ⟨selector, config⟩ t := rfl
    rw [hend]
    split
    · exact .refl _
    · split
      · exact raises_readColon hle
      · exact .refl _

theorem raises_run (skip : Nat) (tokens : List Token) :
    Raises (s.run ⟨selector, config⟩ skip tokens) (s.run ⟨selector, config'⟩ skip tokens) := by
  induction tokens generalizing s skip with
  | nil => exact .refl _
  | cons t rest ih =>
    cases skip with
    | succ skip => exact ih skip
    | zero =>
      rw [run, run]
      have hraises : Raises (s.step ⟨selector, config⟩ t rest) (s.step ⟨selector, config'⟩ t rest) := raises_step hle
      rcases hraises with ⟨cause, hcause⟩ | hstep
      · rw [hcause]
        exact .inl (violates_violation _)
      · rw [hstep]
        split
        · exact .refl _
        · exact ih _

end Selector.State

theorem SelectorList.raises_parse {config config' : Config} (hle : config.maxDepth ≤ config'.maxDepth) (text : Text) :
    Raises (parse config text) (parse config' text) := by
  rw [parse_eq_compile, parse_eq_compile]
  unfold compile
  dsimp only
  split
  · exact .refl _
  · exact (Selector.State.raises_run hle 0 _).bind fun _ => .refl _

namespace Splitter

variable {config config' : Config} {head : Text} {rule : RawRule} {s next : Splitter} {table : List RawRule}
variable (hle : config.maxDepth ≤ config'.maxDepth)

include hle

theorem Accepts.of_le (h : Accepts config head rule) : Accepts config' head rule := by
  obtain ⟨hcontent, selector, hsplit, hparse, hselector⟩ := h
  refine ⟨hcontent, selector, hsplit, ?_, hselector⟩
  rcases SelectorList.raises_parse hle selector with ⟨cause, hcause⟩ | hsame
  · rw [hparse] at hcause
    cases hcause
  · rw [hsame, hparse]

/-- A candidate that is refused stays refused, because a violation is no reason to refuse one. -/
theorem Refuses.of_le (h : Refuses config head) : Refuses config' head := by
  obtain ⟨hcontent, selector, styles, cause, hsplit, hparse⟩ := h
  refine ⟨hcontent, selector, styles, cause, hsplit, ?_⟩
  rcases SelectorList.raises_parse hle selector with ⟨violation, hviolation⟩ | hsame
  · rw [hparse] at hviolation
    cases hviolation
  · rw [hsame, hparse]

theorem Turns.of_le (h : Turns config s next) : Turns config' s next := by
  cases h with
  | last phase free accepts marked => exact .last phase free (accepts.of_le hle) marked
  | refuse phase rest free unescaped refuses => exact .refuse phase rest free unescaped (refuses.of_le hle)
  | accept phase rest free unescaped accepts => exact .accept phase rest free unescaped (accepts.of_le hle)
  | block phase rest free unescaped declares styled => exact .block phase rest free unescaped declares styled

theorem outcome_of_le (h : outcome config s = .ok table) : outcome config' s = .ok table := by
  apply outcome_induction (P := fun s => outcome config' s = .ok table) ?_ ?_ h
  · intro s hrest hfinish
    rw [outcome_of_nil hrest, hfinish]
  · intro s next hne hturn hnext
    rw [(hturn.of_le hle).outcome_eq hne, hnext]

end Splitter

/-- A list is compiled under a limit exactly if it is compiled under some limit and is no deeper than this one;
and the rules of a stylesheet stay the same under every higher limit. -/
theorem depth_limit_exact (config : Config) :
    (∀ (text : Text) (list : SelectorList), SelectorList.parse config text = .ok list ↔
      (∃ config', SelectorList.parse config' text = .ok list) ∧ Part.depthOfLists list ≤ config.maxDepth) ∧
    ∀ config' : Config, config.maxDepth ≤ config'.maxDepth →
      ∀ (sheet : Text) (rules : List Rule), Stylesheet.parse config sheet = .ok rules →
        Stylesheet.parse config' sheet = .ok rules := by
  refine ⟨fun text list => ?_, fun config' hle sheet rules h => ?_⟩
  · simp only [SelectorList.parse_eq_compile]
    constructor
    · intro h
      exact ⟨⟨config, h⟩, SelectorList.depth_le_of_compile h⟩
    · rintro ⟨⟨config', h⟩, hdepth⟩
      exact SelectorList.compile_of_depth_le h hdepth
  · obtain ⟨table, htable, hrules⟩ := map_eq_ok_iff.1 h
    exact map_eq_ok_iff.2 ⟨table, Splitter.outcome_of_le hle htable, hrules⟩

theorem depth_limit_exact_nested :
    (∃ list, SelectorList.parse ⟨2, by decide⟩ "a:not(b:is(c))".toList = .ok list ∧
      SelectorList.parse ⟨1, by decide⟩ "a:not(b:is(c))".toList ≠ .ok list) ∧
    ∃ rules, Stylesheet.parse ⟨1, by decide⟩ "a[b=\"\x7b\"]:not(c) \x7b d: e \x7d".toList = .ok rules ∧
      Stylesheet.parse ⟨2, by decide⟩ "a[b=\"\x7b\"]:not(c) \x7b d: e \x7d".toList = .ok rules := by
  have hlist : SelectorList.parse .standard "a:not(b:is(c))".toList =
      .ok [[.regular ['a'], .relative "not".toList [[.regular ['b'], .relative "is".toList [[.regular ['c']]]]]]] :=
    (SelectorList.parse_eq_compile _ _).trans (eq_ok_of_toOption (by decide +kernel))
  have hrules : Stylesheet.parse ⟨1, by decide⟩ "a[b=\"\x7b\"]:not(c) \x7b d: e \x7d".toList =
      .ok [⟨"a[b=\"\x7b\"]:not(c)".toList,
        [[.regular "a[b=\"\x7b\"]".toList, .relative "not".toList [[.regular ['c']]]]],
        some [⟨['d'], ['e']⟩], none⟩] :=
    eq_ok_of_toOption (by decide +kernel)
  refine ⟨⟨_, ((depth_limit_exact ⟨2, by decide⟩).1 _ _).2 ⟨⟨_, hlist⟩, by decide⟩, fun h => ?_⟩, _, hrules,
    (depth_limit_exact ⟨1, by decide⟩).2 _ (by decide) _ _ hrules⟩
  exact absurd (((depth_limit_exact ⟨1, by decide⟩).1 _ _).1 h).2 (by decide)

end CosmeticFilter
