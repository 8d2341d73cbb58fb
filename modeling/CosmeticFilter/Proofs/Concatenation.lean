import CosmeticFilter.Proofs.Normalization

/-!
# Stylesheets one after the other

Where a stylesheet ends in a closing brace, more text can follow it: `Stylesheet.rawRules_append` says that the
rules of the whole are those of the first text with the rules of the second one added to its table, and that
the whole fails exactly as the second text does.

A run over the first text never looks past its last brace, so that every turn is the same where the text goes
on (`Turns.append`), and it leaves nothing behind but its table (`outcome_append`). What is read afterwards does
not depend on that table: `outcome_addedTo` compares a run that starts with a table with one that starts with none.
-/

namespace CosmeticFilter

/-! ### Tables -/

namespace RawRule

variable {raw other : RawRule} {raws table : List RawRule}

/-- The selectors of a table. -/
abbrev keys (table : List RawRule) : List Text := table.map selector

theorem mem_keys_save {key : Text} : key ∈ keys (raw.save table) ↔ key ∈ keys table ∨ key = raw.selector := by
  induction table with
  | nil => simp [save]
  | cons stored table ih =>
    rw [save]
    by_cases h : stored.selector = raw.selector
    · simp only [h, if_true, List.map_cons, List.mem_cons]
      tauto
    · simp only [h, if_false, List.map_cons, List.mem_cons, ih, or_assoc]

theorem nodup_save (h : (keys table).Nodup) : (keys (raw.save table)).Nodup := by
  induction table with
  | nil => exact List.pairwise_singleton _ _
  | cons stored table ih =>
    obtain ⟨hstored, htable⟩ := List.nodup_cons.1 h
    rw [save]
    by_cases hsame : stored.selector = raw.selector
    · rw [if_pos hsame]
      exact List.nodup_cons.2 ⟨hstored, htable⟩
    · rw [if_neg hsame]
      refine List.nodup_cons.2 ⟨fun hmem => ?_, ih htable⟩
      rcases mem_keys_save.1 hmem with hmem | heq
      · exact hstored hmem
      · exact hsame heq

/-- Rules of one selector can be joined before they are added. -/
theorem save_save (h : other.selector = raw.selector) (table : List RawRule) :
    raw.save (other.save table) = RawRule.save { other with styles := other.styles ++ raw.styles } table := by
  induction table with
  | nil => simp [save, h]
  | cons stored table ih =>
    by_cases hstored : stored.selector = other.selector
    · simp [save, hstored, h]
    · have hraw : stored.selector ≠ raw.selector := h ▸ hstored
      simp [save, hstored, hraw, ih]

/-- The place of a selector that is stored already does not depend on what is added. -/
theorem save_comm (hne : raw.selector ≠ other.selector) (hmem : raw.selector ∈ keys table) :
    raw.save (other.save table) = other.save (raw.save table) := by
  induction table with
  | nil => cases hmem
  | cons stored table ih =>
    by_cases hraw : stored.selector = raw.selector
    · have hother : stored.selector ≠ other.selector := hraw ▸ hne
      simp [save, hraw, hne]
    · by_cases hother : stored.selector = other.selector
      · simp [save, hother, hne.symm]
      · have hlater : raw.selector ∈ keys table := by
          rcases List.mem_cons.1 hmem with heq | hlater
          · exact absurd heq.symm hraw
          · exact hlater
        simp [save, hraw, hother, ih hlater]

theorem save_saveAll (hnot : raw.selector ∉ keys raws) (hmem : raw.selector ∈ keys table) :
    raw.save (saveAll raws table) = saveAll raws (raw.save table) := by
  induction raws generalizing table with
  | nil => rfl
  | cons other raws ih =>
    obtain ⟨hne, hnot⟩ := not_or.1 (mt List.mem_cons.2 hnot)
    rw [saveAll, saveAll, ih hnot (mem_keys_save.2 (.inl hmem)), save_comm hne hmem]

/-- A rule can be added to a table before or after the table is added to another one. -/
theorem saveAll_save (h : (keys raws).Nodup) (raw : RawRule) (table : List RawRule) :
    saveAll (raw.save raws) table = raw.save (saveAll raws table) := by
  induction raws generalizing table with
  | nil => rfl
  | cons stored raws ih =>
    obtain ⟨hstored, hraws⟩ := List.nodup_cons.1 h
    rw [save]
    by_cases hsame : stored.selector = raw.selector
    · rw [if_pos hsame, saveAll, saveAll, save_saveAll (hsame ▸ hstored) (mem_keys_save.2 (.inr hsame.symm)),
        save_save hsame]
    · rw [if_neg hsame, saveAll, saveAll, ih hraws]

end RawRule

namespace Splitter

open Text (Escapes Free Blank)
open RawRule (keys)

variable {config : Config} {s next : Splitter} {table : List RawRule} {more : Text}

/-! ### Runs that start with a table -/

/-- The state with its rules added to a table. -/
def addedTo (table : List RawRule) (s : Splitter) : Splitter := { s with saved := RawRule.saveAll s.saved table }

theorem readLast_addedTo (hnodup : (keys s.saved).Nodup) (buffer : Text) :
    (s.addedTo table).readLast config buffer =
      (s.readLast config buffer).map fun turn => { turn with next := turn.next.addedTo table } := by
  apply bind_eq_map_bind
  rintro ⟨selector, styles⟩
  dsimp only
  by_cases hstyles : styles.isEmpty = true
  · rw [if_pos hstyles, if_pos hstyles]
    rfl
  · rw [if_neg hstyles, if_neg hstyles]
    apply bind_eq_map_bind
    intro ast
    show Except.ok _ = Except.ok _
    simp only [addedTo, RawRule.saveAll_save hnodup]

theorem readHead_addedTo (buffer : Text) (cut : Text.Cut) :
    (s.addedTo table).readHead config buffer cut =
      (s.readHead config buffer cut).map fun turn => { turn with next := turn.next.addedTo table } := by
  unfold readHead
  dsimp only
  by_cases hblank : (Text.trimBlank (buffer ++ cut.before)).isEmpty = true
  · rw [if_pos hblank, if_pos hblank]
    rfl
  · rw [if_neg hblank, if_neg hblank]
    apply bind_eq_map_bind
    rintro ⟨selector, styles⟩
    dsimp only
    cases SelectorList.parse config selector with
    | ok ast => rfl
    | error fault => cases fault <;> rfl

theorem readStyle_addedTo (hnodup : (keys s.saved).Nodup) (pending : RawRule) :
    (s.addedTo table).readStyle pending =
      (s.readStyle pending).map fun turn => { turn with next := turn.next.addedTo table } := by
  unfold readStyle
  show (Block.read s.rest _).map _ = _
  cases Block.read s.rest (!pending.styles.isEmpty) with
  | error fault => rfl
  | ok block =>
    show Except.ok _ = Except.ok _
    simp only [addedTo, RawRule.saveAll_save hnodup]

/-- A turn does not depend on the table that it adds to. -/
theorem step_addedTo (hnodup : (keys s.saved).Nodup) :
    (s.addedTo table).step config = (s.step config).map fun turn => { turn with next := turn.next.addedTo table } := by
  have hphase : (s.addedTo table).phase = s.phase := rfl
  have hrest : (s.addedTo table).rest = s.rest := rfl
  unfold step
  rw [hphase, hrest]
  cases s.phase with
  | selector buffer =>
    dsimp only
    cases Text.cutUnescaped? (· = '\x7b') s.rest with
    | none => exact readLast_addedTo hnodup buffer
    | some cut => exact readHead_addedTo buffer cut
  | style pending => exact readStyle_addedTo hnodup pending

theorem Turns.nodup (h : Turns config s next) (hnodup : (keys s.saved).Nodup) : (keys next.saved).Nodup := by
  cases h with
  | last phase free accepts marked => exact RawRule.nodup_save hnodup
  | refuse phase rest free unescaped refuses => exact hnodup
  | accept phase rest free unescaped accepts => exact hnodup
  | block phase rest free unescaped declares styled => exact RawRule.nodup_save hnodup

theorem finish_addedTo : (s.addedTo table).finish = s.finish.map fun saved => RawRule.saveAll saved table := by
  have hphase : (s.addedTo table).phase = s.phase := rfl
  unfold finish
  rw [hphase]
  cases s.phase with
  | style pending => rfl
  | selector buffer =>
    dsimp only
    split
    · rfl
    · rfl

theorem outcome_of_error {fault : Fault} (hne : s.rest ≠ []) (h : s.step config = .error fault) :
    outcome config s = .error fault := by
  rw [outcome, trace, dif_neg hne]
  split
  · next fault' hfault =>
    cases h.symm.trans hfault
    rfl
  · next hturn => simp [h] at hturn

/-- A run that starts with a table adds to it what a run without one collects, and fails like it. -/
theorem outcome_addedTo (hnodup : (keys s.saved).Nodup) :
    outcome config (s.addedTo table) = (outcome config s).map fun saved => RawRule.saveAll saved table := by
  induction hn : s.rest.length using Nat.strong_induction_on generalizing s with
  | _ n ih =>
  by_cases hnil : s.rest = []
  · rw [outcome_of_nil hnil, outcome_of_nil (s := s.addedTo table) hnil, finish_addedTo]
  · have hstep : (s.addedTo table).step config =
        (s.step config).map fun turn => { turn with next := turn.next.addedTo table } := step_addedTo hnodup
    cases hturn : s.step config with
    | error fault =>
      rw [hturn] at hstep
      rw [outcome_of_error hnil hturn, outcome_of_error (s := s.addedTo table) hnil hstep]
      rfl
    | ok turn =>
      rw [hturn] at hstep
      have hnext := ih turn.next.rest.length (hn ▸ length_rest_step_lt hnil hturn)
        ((turns_of_step hturn).nodup hnodup) rfl
      rw [outcome_of_step hnil hturn, outcome_of_step (s := s.addedTo table) hnil hstep, ← hnext]

/-! ### Runs over a text that goes on -/

/-- A turn of a text that ends in a closing brace is the same if the text goes on. Where it is the last one, it
also takes the blank characters after the brace. -/
theorem Turns.append (h : Turns config s next) (hend : s.rest.getLast? = some '\x7d') (more : Text) :
    next.rest = [] ∧ next.phase = .selector [] ∧
        Turns config { s with rest := s.rest ++ more } { next with rest := more.dropWhile Text.isBlank } ∨
      next.rest.getLast? = some '\x7d' ∧
        Turns config { s with rest := s.rest ++ more } { next with rest := next.rest ++ more } := by
  have hlast : ∀ {before after : Text} {c : Char}, s.rest = before ++ c :: after → after ≠ [] →
      after.getLast? = some '\x7d' := by
    intro before after c hrest hne
    rw [hrest, List.getLast?_append_of_ne_nil _ (List.cons_ne_nil _ _), ← List.singleton_append,
      List.getLast?_append_of_ne_nil _ hne] at hend
    exact hend
  have hbrace : ∀ {before after : Text}, s.rest = before ++ '\x7b' :: after → after ≠ [] := by
    rintro before after hrest rfl
    rw [hrest, List.getLast?_concat] at hend
    cases hend
  cases h with
  | @last buffer rule phase free accepts marked =>
    -- the marker of removal does not end in a brace
    obtain ⟨selector, hmarked, -⟩ := accepts_marked_iff.1 ⟨accepts, marked⟩
    have hne : s.rest ≠ [] := by
      intro hnil
      rw [hnil] at hend
      cases hend
    have htrim : (Text.trimBlank (buffer ++ s.rest)).getLast? = some '\x7d' := by
      apply Text.getLast?_trim_of_getLast? _ rfl
      rw [List.getLast?_append_of_ne_nil _ hne, hend]
    rw [hmarked.ends, List.getLast?_append] at htrim
    cases htrim
  | @refuse buffer before after phase rest free unescaped refuses =>
    have hafter := hlast rest (hbrace rest)
    exact .inr ⟨hafter, .refuse phase (by simp [rest]) free unescaped refuses⟩
  | @accept buffer before after rule phase rest free unescaped accepts =>
    have hafter := hlast rest (hbrace rest)
    exact .inr ⟨hafter, .accept phase (by simp [rest]) free unescaped accepts⟩
  | @block pending body after ds phase rest free unescaped declares styled =>
    have hrest : s.rest ++ more = body ++ '\x7d' :: (after ++ more) := by simp [rest]
    have hturn : Turns config { s with rest := s.rest ++ more } _ :=
      .block phase hrest free unescaped declares styled
    by_cases hnil : after = []
    · subst hnil
      exact .inl ⟨rfl, rfl, hturn⟩
    · have hkept : after.dropWhile Text.isBlank ≠ [] := by
        rw [ne_eq, List.dropWhile_eq_nil_iff]
        intro hblank
        exact absurd (hblank '\x7d' (List.mem_of_getLast? (hlast rest hnil))) (by decide)
      rw [List.dropWhile_append, if_neg (by simpa using hkept)] at hturn
      refine .inr ⟨?_, hturn⟩
      obtain ⟨front, hfront⟩ := List.dropWhile_suffix Text.isBlank (l := after)
      have hafter := hlast rest hnil
      rwa [← hfront, List.getLast?_append_of_ne_nil _ hkept] at hafter

/-- A text that ends in a closing brace leaves nothing to the text after it but its table. -/
theorem outcome_append (h : outcome config s = .ok table) (hend : s.rest.getLast? = some '\x7d') (more : Text) :
    outcome config { s with rest := s.rest ++ more } =
      outcome config { rest := more.dropWhile Text.isBlank, saved := table } := by
  -- at the end of the run, its table is that of the state
  have hrun : (s.rest = [] → s.finish = .ok table) ∧ (s.rest.getLast? = some '\x7d' →
      outcome config { s with rest := s.rest ++ more } =
        outcome config { rest := more.dropWhile Text.isBlank, saved := table }) := by
    apply outcome_induction (P := fun s => (s.rest = [] → s.finish = .ok table) ∧
      (s.rest.getLast? = some '\x7d' → outcome config { s with rest := s.rest ++ more } =
        outcome config { rest := more.dropWhile Text.isBlank, saved := table })) ?_ ?_ h
    · intro s hrest hfinish
      refine ⟨fun _ => hfinish, fun hend => ?_⟩
      rw [hrest] at hend
      cases hend
    · intro s next hne hturn hnext
      refine ⟨fun hrest => absurd hrest hne, fun hend => ?_⟩
      have hne' : s.rest ++ more ≠ [] := List.append_ne_nil_of_left_ne_nil hne _
      rcases hturn.append hend more with ⟨hrest, hphase, hlast⟩ | ⟨hend', hlater⟩
      · have hsaved : next.saved = table := by
          have hfinish := hnext.1 hrest
          rw [finish, hphase] at hfinish
          exact Except.ok.inj hfinish
        rw [hlast.outcome_eq hne', ← hsaved, ← hphase]
      · rw [hlater.outcome_eq hne', hnext.2 hend']
  exact hrun.2 hend

end Splitter

namespace Stylesheet

open Text (Blank)

variable {config : Config} {a b : Text} {table : List RawRule}

/-! ### Normalized texts -/

theorem joinLines_append (h : ∀ c, a.getLast? = some c → isBreak c = false) (b : Text) :
    joinLines (a ++ b) = joinLines a ++ joinLines b := by
  induction a with
  | nil => rfl
  | cons c a ih =>
    cases a with
    | nil =>
      have hc : isBreak c = false := h c rfl
      simp [joinLines, hc]
    | cons d a =>
      have hrest := ih fun e he => h e (by simpa using he)
      rw [List.cons_append, joinLines, joinLines, hrest]
      rw [List.cons_append, List.head?_cons, List.head?_cons]
      split
      · split <;> rfl
      · rfl

theorem getLast?_joinLines {c : Char} (h : a.getLast? = some c) (hc : isBreak c = false) :
    (joinLines a).getLast? = some c := by
  obtain ⟨before, rfl⟩ := List.getLast?_eq_some_iff.1 h
  clear h
  induction before with
  | nil => simp [joinLines, hc]
  | cons d before ih =>
    rw [List.cons_append, joinLines]
    have hne : joinLines (before ++ [c]) ≠ [] := by
      intro hnil
      rw [hnil] at ih
      cases ih
    split
    · split
      · exact ih
      · rw [← List.singleton_append, List.getLast?_append_of_ne_nil _ hne, ih]
    · rw [← List.singleton_append, List.getLast?_append_of_ne_nil _ hne, ih]

/-- Two texts are trimmed one by one, but for blank characters between them. -/
theorem trimBlank_append (hne : Text.trimBlank a ≠ []) (b : Text) :
    ∃ gap, Blank gap ∧ Text.trimBlank (a ++ b) = Text.trimBlank a ++ (gap ++ Text.trimBlank b) := by
  by_cases hblank : Blank b
  · refine ⟨[], by decide, ?_⟩
    rw [Text.trimBlank_eq_nil_iff.2 hblank, List.append_nil, List.append_nil]
    exact Text.trim_append_of_all hblank
  · obtain ⟨lead, back, hb, hlead, -⟩ := Text.exists_eq_trim Text.isBlank b
    obtain ⟨d, core, hcore⟩ := List.exists_cons_of_ne_nil (mt Text.trimBlank_eq_nil_iff.1 hblank)
    have hd : Text.isBlank d = false := Text.head?_trim (t := b) (by rw [← Text.trimBlank, hcore]; rfl)
    have hrest : b = lead ++ d :: (core ++ back) := by
      rw [← Text.trimBlank, hcore] at hb
      simpa using hb
    have hlast : Text.trimBlank (a ++ lead) = Text.trimBlank a := Text.trim_append_of_all hlead
    -- the blank characters before the second text are kept, and those after the first one
    obtain ⟨front, gap, -, hgap, htrim⟩ := Text.exists_trim_append (p := Text.isBlank) (t := a ++ lead)
      (by rw [← Text.trimBlank, hlast]; exact hne)
    refine ⟨gap, hgap, ?_⟩
    have htail : Text.trimBlank b = Text.trim Text.isBlank (d :: (core ++ back)) := by
      rw [hrest]
      exact Text.trim_lead hlead
    rw [htail, ← hlast, Text.trimBlank, Text.trimBlank, ← htrim d (core ++ back) hd, hrest, List.append_assoc]

/-- A text without the start of a comment keeps all its characters but breaks. -/
theorem normalize_of_no_comment (h : ¬ ['/', '*'] <:+: a) : normalize a = Text.trimBlank (joinLines a) := by
  rw [normalize, dropComments_eq_self]
  rintro ⟨before, inside, after, rfl⟩
  exact h ⟨before, inside ++ '*' :: '/' :: after, by simp⟩

/-- Two texts without comments, of which the first one ends in a closing brace, are normalized one by one. -/
theorem normalize_append_brace (hcomment : ¬ ['/', '*'] <:+: a ++ b) (hend : a.getLast? = some '\x7d') :
    (normalize a).getLast? = some '\x7d' ∧
      ∃ gap, Blank gap ∧ normalize (a ++ b) = normalize a ++ (gap ++ normalize b) := by
  have ha : normalize a = Text.trimBlank (joinLines a) :=
    normalize_of_no_comment fun h => hcomment (h.trans (List.prefix_append a b).isInfix)
  have hb : normalize b = Text.trimBlank (joinLines b) :=
    normalize_of_no_comment fun h => hcomment (h.trans (List.suffix_append a b).isInfix)
  have hlast : (normalize a).getLast? = some '\x7d' := by
    rw [ha]
    exact Text.getLast?_trim_of_getLast? (getLast?_joinLines hend rfl) rfl
  have hbreak : ∀ c, a.getLast? = some c → isBreak c = false := by
    intro c hc
    rw [hend] at hc
    cases hc
    rfl
  have hne : Text.trimBlank (joinLines a) ≠ [] := by
    intro hnil
    rw [ha, hnil] at hlast
    cases hlast
  refine ⟨hlast, ?_⟩
  rw [normalize_of_no_comment hcomment, joinLines_append hbreak, ha, hb]
  exact trimBlank_append hne (joinLines b)

/-- A stylesheet that ends in a closing brace can be followed by any text: the rules of the whole are those of the
text after it added to the table of the stylesheet, and where that text fails the whole fails in the same way. -/
theorem rawRules_append (hcomment : ¬ ['/', '*'] <:+: a ++ b) (ha : rawRules config a = .ok table)
    (hend : a.getLast? = some '\x7d') :
    rawRules config (a ++ b) = (rawRules config b).map fun rules => RawRule.saveAll rules table := by
  obtain ⟨hlast, gap, hgap, hnormal⟩ := normalize_append_brace hcomment hend
  have hstart : ∀ c, (normalize b).head? = some c → Text.isBlank c = false := fun c hc => Text.head?_trim hc
  have hskip : (gap ++ normalize b).dropWhile Text.isBlank = normalize b := by
    rw [List.dropWhile_append_of_pos hgap, Text.dropWhile_eq_self hstart]
  have hfirst := Splitter.outcome_append (s := { rest := normalize a }) ha hlast (gap ++ normalize b)
  have hsecond : Splitter.outcome config (Splitter.addedTo table { rest := normalize b }) =
      (Splitter.outcome config { rest := normalize b }).map fun rules => RawRule.saveAll rules table :=
    Splitter.outcome_addedTo List.nodup_nil
  rw [hskip] at hfirst
  unfold rawRules Splitter.rules
  rw [hnormal]
  exact hfirst.trans hsecond

theorem rawRules_append_same_selector :
    ∃ table rules, rawRules .standard "a \x7b b: c \x7d".toList = .ok table ∧
      rawRules .standard "\n d \x7b e: f \x7d a \x7b g: h \x7d d:remove()".toList = .ok rules ∧
      rawRules .standard ("a \x7b b: c \x7d".toList ++ "\n d \x7b e: f \x7d a \x7b g: h \x7d d:remove()".toList) =
        .ok (RawRule.saveAll rules table) ∧
      (RawRule.saveAll rules table).map RawRule.selector = [['a'], ['d']] := by
  have htable : rawRules .standard "a \x7b b: c \x7d".toList =
      .ok [⟨['a'], [[.regular ['a']]], [⟨['b'], ['c']⟩]⟩] := eq_ok_of_toOption (by decide +kernel)
  have hrules : rawRules .standard "\n d \x7b e: f \x7d a \x7b g: h \x7d d:remove()".toList =
      .ok [⟨['d'], [[.regular ['d']]], [⟨['e'], ['f']⟩, Declaration.removal]⟩,
        ⟨['a'], [[.regular ['a']]], [⟨['g'], ['h']⟩]⟩] := eq_ok_of_toOption (by decide +kernel)
  refine ⟨_, _, htable, hrules, ?_, by decide⟩
  rw [rawRules_append (by decide +kernel) htable rfl, hrules]
  rfl

end Stylesheet

end CosmeticFilter
