import CosmeticFilter.Proofs.Validity

/-!
# Texts that go on

A selector may be longer than the text that is compiled first: where a stylesheet is read, the text before
every opening curly bracket is a candidate. `SelectorList.parse_append_violates` says that a violation of the
policy in one candidate is one in every longer candidate, so it is safe to give up at the first.

The tokens of the longer text are those of the shorter one and more, because the scanner cuts before a mark.
A step that succeeds with some token after it does the same where the text goes on (`Move.append`), and a step
that finds a violation finds one there too (`violates_step_append`). At the last token of the shorter text the
two runs may part, since a space is dropped or kept there, but then the shorter one has found none.
-/

namespace CosmeticFilter

/-! ### The text at its end -/

/-- White space before a mark starts with a mark, too. -/
theorem Token.isMark_head?_append {gap t : Text} (hgap : ∀ c ∈ gap, Text.isSpace c = true)
    (ht : ∀ c, t.head? = some c → CosmeticFilter.isMark c = true) :
    ∀ c, (gap ++ t).head? = some c → CosmeticFilter.isMark c = true := by
  intro c hc
  cases gap with
  | nil => exact ht c hc
  | cons d gap =>
    cases hc
    exact Token.isMark_of_isSpace (hgap c (by simp))

/-- Before a mark that is not white space, the tokens of a text stay what they are. -/
theorem Token.scan_trimSpace_append {text : Text} {c : Char} (hne : Text.trimSpace text ≠ [])
    (hmark : CosmeticFilter.isMark c = true) (hspace : Text.isSpace c = false) (more : Text) :
    ∃ tokens, Token.scan (Text.trimSpace (text ++ c :: more)) = Token.scan (Text.trimSpace text) ++ tokens := by
  obtain ⟨-, gap, -, hgap, htrim⟩ := Text.exists_trim_append hne
  obtain ⟨more', hmore'⟩ := Text.exists_trim_cons hspace more
  have hmarks : ∀ d, (c :: more').head? = some d → CosmeticFilter.isMark d = true := by
    intro d hd
    cases hd
    exact hmark
  refine ⟨scanFrom (0 + (Text.trimSpace text).length) (gap ++ c :: more'), ?_⟩
  rw [Text.trimSpace, htrim c more hspace, hmore', scan, scanFrom_append (isMark_head?_append hgap hmarks)]
  rfl

/-! ### Violations -/

/-- The computation stops at a violation of the policy. -/
def Violates {α : Type} (x : Except Fault α) : Prop := ∃ cause, x = .error (.violation cause)

instance {α : Type} (x : Except Fault α) : Decidable (Violates x) :=
  match x with
  | .ok _ => isFalse nofun
  | .error (.malformed _) => isFalse nofun
  | .error (.violation cause) => isTrue ⟨cause, rfl⟩
  | .error (.misshapen _) => isFalse nofun
  | .error (.sheet _) => isFalse nofun

section

variable {α β : Type} {x : Except Fault α}

@[simp] theorem violates_ok (a : α) : ¬Violates (.ok a : Except Fault α) := nofun

@[simp] theorem violates_violation (cause : Violation) : Violates (.error (.violation cause) : Except Fault α) :=
  ⟨cause, rfl⟩

@[simp] theorem violates_malformed (cause : Malformed) : ¬Violates (.error (.malformed cause) : Except Fault α) :=
  nofun

@[simp] theorem violates_misshapen (cause : Misshapen) : ¬Violates (.error (.misshapen cause) : Except Fault α) :=
  nofun

theorem violates_bind_iff {f : α → Except Fault β} :
    Violates (x.bind f) ↔ Violates x ∨ ∃ a, x = .ok a ∧ Violates (f a) := by
  cases x <;> simp [Except.bind, Violates]

theorem violates_map_iff {f : α → β} : Violates (x.map f) ↔ Violates x := by
  cases x <;> simp [Except.map, Violates]

theorem not_violates_of_faults (h : Faults (fun fault => ∀ cause, fault ≠ .violation cause) x) : ¬Violates x :=
  fun ⟨cause, hcause⟩ => h _ hcause cause rfl

end

namespace Selector

open State

variable {input input' : Input} {s : State} {t : Token} {rest : List Token}

namespace State

/-! ### More tokens ahead -/

section

variable {more : List Token}

theorem extendedName?_append {named : Text × PseudoClass.Kind} (h : extendedName? rest = some named) :
    extendedName? (rest ++ more) = some named := by
  cases rest with
  | nil => cases h
  | cons t rest => exact h

theorem opensArgument_append (h : opensArgument rest = true) : opensArgument (rest ++ more) = true := by
  match rest with
  | [] => cases h
  | [_] => cases h
  | _ :: _ :: _ => exact h

theorem Opens.append {name : Text} {kind : PseudoClass.Kind} (h : s.Opens rest name kind) :
    s.Opens (rest ++ more) name kind :=
  ⟨extendedName?_append h.named, h.depth, opensArgument_append h.argument, h.allowed, h.placed⟩

/-- A move that is not made at the last token does not depend on what follows the tokens ahead. -/
theorem Move.append {config : Config} {next : Step} (h : Move config s t rest next) (hne : rest ≠ []) :
    Move config s t (rest ++ more) next := by
  obtain ⟨u, rest, rfl⟩ := List.exists_cons_of_ne_nil hne
  cases h with
  | inAttribute mode read => exact .inAttribute mode read
  | inArgument mode read => exact .inArgument mode read
  | comma mode mark depth regular => exact .comma mode mark depth regular
  | close mode mark depth removed stack regular => exact .close mode mark depth removed stack regular
  | colon mode mark removed plain => exact .colon mode mark removed plain
  | openRelative mode mark removed opens limit => exact .openRelative mode mark removed opens.append limit
  | openAbsolute mode mark removed opens remove => exact .openAbsolute mode mark removed opens.append remove
  | keepSpace mode space kept => exact .keepSpace mode space kept
  | dropSpace mode space depth dropped => exact .dropSpace mode space depth dropped
  | plain mode removed ordinary => exact .plain mode removed ordinary

theorem violates_checkAfterRemove_append (h : Violates (s.checkAfterRemove input t rest)) :
    Violates (s.checkAfterRemove input' t (rest ++ more)) := by
  rw [checkAfterRemove] at h ⊢
  split at h
  · exact absurd h (violates_ok _)
  · next hlate =>
    rw [if_neg hlate]
    split <;> simp

theorem violates_checkRemove (h : Violates (s.checkRemove input)) : Violates (s.checkRemove input') := by
  rw [checkRemove] at h ⊢
  split
  · simp
  · next hstack =>
    rw [hstack] at h
    dsimp only at h
    split
    · simp
    · next hblank =>
      rw [if_neg hblank] at h
      exact h

theorem violates_openExtended {name : Text} {kind : PseudoClass.Kind} (hconfig : input.config = input'.config)
    (h : Violates (s.openExtended input name kind)) : Violates (s.openExtended input' name kind) := by
  cases kind with
  | relative =>
    show Violates (s.openRelative input' name)
    have h : Violates (s.openRelative input name) := h
    rw [openRelative] at h ⊢
    rw [← hconfig]
    split at h
    · next hdeep =>
      rw [if_pos hdeep]
      exact violates_violation _
    · exact absurd h (violates_ok _)
  | absolute =>
    show Violates (s.openAbsolute input' name)
    have h : Violates (s.openAbsolute input name) := h
    rw [openAbsolute] at h ⊢
    by_cases hname : name = PseudoClass.removeName
    · rw [if_pos hname] at h ⊢
      refine violates_bind_iff.2 (.inl ?_)
      rcases violates_bind_iff.1 h with hcheck | ⟨u, -, hopen⟩
      · exact violates_checkRemove hcheck
      · exact absurd hopen (violates_ok _)
    · rw [if_neg hname] at h
      exact absurd h (violates_ok _)

theorem violates_readColon_append (hconfig : input.config = input'.config) (h : Violates (s.readColon input rest)) :
    Violates (s.readColon input' (rest ++ more)) := by
  rw [readColon] at h
  split at h
  · exact absurd h (violates_ok _)
  · next name kind hnamed =>
    rw [readColon, extendedName?_append hnamed]
    dsimp only
    split at h
    · next hdepth =>
      rw [if_pos hdepth]
      refine violates_bind_iff.2 (.inl ?_)
      rcases violates_bind_iff.1 h with hhas | ⟨u, -, hcopy⟩
      · exact hhas
      · exact absurd hcopy (violates_ok _)
    · next hdepth =>
      rw [if_neg hdepth]
      refine violates_bind_iff.2 ((violates_bind_iff.1 h).imp_right ?_)
      rintro ⟨u, hinside, h⟩
      refine ⟨u, hinside, violates_bind_iff.2 ((violates_bind_iff.1 h).imp_right ?_)⟩
      rintro ⟨u, hhas, h⟩
      refine ⟨u, hhas, ?_⟩
      split at h
      · next hopens =>
        rw [if_pos (opensArgument_append hopens)]
        refine violates_bind_iff.2 (.inl ?_)
        rcases violates_bind_iff.1 h with hopen | ⟨next, -, hskip⟩
        · exact violates_openExtended hconfig hopen
        · exact absurd hskip (violates_ok _)
      · exact absurd h (violates_malformed _)

/-- A violation that is found at a token is found there if the text goes on. -/
theorem violates_step_append (hconfig : input.config = input'.config) (h : Violates (s.step input t rest)) :
    Violates (s.step input' t (rest ++ more)) := by
  rw [step] at h
  split at h
  · exact absurd (violates_map_iff.1 h) (not_violates_of_faults (faults_readAttribute (by simp) _))
  · exact absurd (violates_map_iff.1 h) (not_violates_of_faults (faults_readArgument (by simp) _))
  · next hmode =>
    rw [step_regular hmode]
    refine violates_bind_iff.2 ?_
    rcases violates_bind_iff.1 h with hcheck | ⟨⟨⟩, hcheck, h⟩
    · exact .inl (violates_checkAfterRemove_append hcheck)
    · refine .inr ⟨(), checkAfterRemove_eq_ok_iff.2 (checkAfterRemove_eq_ok_iff.1 hcheck), ?_⟩
      split at h
      · next end_ hend =>
        rcases violates_bind_iff.1 h with hfault | ⟨state, -, hstate⟩
        · exact absurd hfault (not_violates_of_faults (faults_readEnd? (by simp) (by simp) hend))
        · exact absurd hstate (violates_ok _)
      · next hend =>
        rw [readEnd?_eq_none_iff.2 (readEnd?_eq_none_iff.1 hend)]
        dsimp only
        split at h
        · next hcolon =>
          rw [if_pos hcolon]
          exact violates_readColon_append hconfig h
        · split at h <;> exact absurd h (violates_ok _)

/-- A run that finds a violation finds one if the text goes on. -/
theorem violates_run_append (hconfig : input.config = input'.config) {skip : Nat} {tokens : List Token}
    (h : Violates (s.run input skip tokens)) : Violates (s.run input' skip (tokens ++ more)) := by
  induction tokens generalizing s skip with
  | nil => exact absurd h (by rw [run]; exact violates_ok _)
  | cons t rest ih =>
    cases skip with
    | succ skip =>
      rw [run] at h
      exact ih h
    | zero =>
      rw [run] at h
      rw [List.cons_append, run]
      split at h
      · next fault hfault =>
        obtain ⟨cause, rfl⟩ : ∃ cause, fault = .violation cause := by
          obtain ⟨cause, hcause⟩ := h
          exact ⟨cause, Except.error.inj hcause⟩
        have hstep : Violates (s.step input' t (rest ++ more)) := violates_step_append hconfig ⟨cause, hfault⟩
        obtain ⟨cause', hcause'⟩ := hstep
        rw [hcause']
        exact violates_violation _
      · next next hnext =>
        -- after the last token of the shorter text nothing is left to be found
        have hne : rest ≠ [] := by
          rintro rfl
          rw [run] at h
          exact violates_ok _ h
        have hmove : Move input.config s t (rest ++ more) next := (step_eq_ok_iff.1 hnext).append hne
        rw [hconfig] at hmove
        rw [step_eq_ok_iff.2 hmove]
        exact ih h

end

end State

end Selector

/-! ### Compiling a text that goes on -/

namespace SelectorList

open Selector

variable {config : Config} {text : Text}

theorem violates_compile_iff : Violates (compile config text) ↔ Text.trimSpace text ≠ [] ∧
    Violates (State.start.run ⟨Text.trimSpace text, config⟩ 0 (Token.scan (Text.trimSpace text))) := by
  rw [compile]
  by_cases hempty : Text.trimSpace text = []
  · simp [hempty]
  · simp only [List.isEmpty_iff, hempty, if_false, violates_bind_iff, ne_eq, not_false_eq_true, true_and]
    refine or_iff_left ?_
    rintro ⟨final, -, hfinish⟩
    exact not_violates_of_faults (faults_finish (by simp) (by simp)) hfinish

/-- A violation of the policy stays one if the text goes on with an opening curly bracket. -/
theorem parse_append_violates (h : Violates (parse config text)) (more : Text) :
    Violates (parse config (text ++ Mark.curlyLeft :: more)) := by
  rw [parse_eq_compile] at h ⊢
  obtain ⟨hne, hrun⟩ := violates_compile_iff.1 h
  obtain ⟨tokens, htokens⟩ :=
    Token.scan_trimSpace_append hne (c := Mark.curlyLeft) (by decide) (by decide) more
  refine violates_compile_iff.2 ⟨?_, ?_⟩
  · intro hnil
    have hspace := Text.trim_eq_nil_iff.1 hnil Mark.curlyLeft (by simp)
    cases hspace
  · rw [htokens]
    exact State.violates_run_append (by rfl) hrun

theorem parse_append_violates_repeated :
    Violates (parse .standard " p :remove():remove ".toList) ∧
      Violates (parse .standard (" p :remove():remove ".toList ++ Mark.curlyLeft :: "():is(".toList)) := by
  have h : Violates (parse .standard " p :remove():remove ".toList) := by
    rw [parse_eq_compile]
    decide +kernel
  exact ⟨h, parse_append_violates h _⟩

end SelectorList

end CosmeticFilter
