import CosmeticFilter.Proofs.Independence

/-!
# Arguments as lists of their own

`SelectorList.parse_argument_outside` says that the text between the parentheses of a relative pseudo-class is
compiled to the same list where it stands outside of any argument, after a comma.

The run over the argument has the interrupted list at the bottom of its stack. A move above it is a move without
it, as long as it does not end the argument (`Move.inside_or_closed`). When the argument ends, the interrupted list
gets a part. It keeps what it has (`Reaches.keeps_trail`), so in a result with one such part the argument ends once,
at the last parenthesis.
-/

namespace CosmeticFilter

namespace Selector

variable {config : Config} {s final : State} {t : Token} {tokens rest : List Token} {next : Step} {e : Suspended}

namespace State

/-! ### Runs inside an argument -/

/-- The state inside the argument that interrupts the list `e`. -/
def inside (e : Suspended) (s : State) : State := { s with outer := s.outer ++ [e] }

theorem rebases_inside (e : Suspended) : Rebases (inside e) :=
  ⟨fun _ => rfl, fun _ => rfl, fun _ _ => rfl, fun _ _ => rfl⟩

theorem Opens.of_inside {name : Text} {kind : PseudoClass.Kind} (h : (s.inside e).Opens rest name kind) :
    s.Opens rest name kind := by
  refine ⟨h.named, h.depth, h.argument, fun hmem outer houter => h.allowed hmem outer ?_, h.placed⟩
  show outer ∈ (s.outer ++ [e]).map Suspended.name
  rw [List.map_append]
  exact List.mem_append_left _ houter

/-- Inside an argument, a move is one without the interrupted list, or it ends the argument. -/
theorem Move.inside_or_closed (h : Move config (s.inside e) t rest next) :
    (∃ state, next = { next with state := state.inside e } ∧ Move config s t rest { next with state }) ∨
      next.state = (s.inside e).resume e [] := by
  cases h with
  | inAttribute mode read =>
    rw [(rebases_inside e).readAttribute] at read
    obtain ⟨state, hstate, rfl⟩ := map_eq_ok_iff.1 read
    exact .inl ⟨state, rfl, .inAttribute mode hstate⟩
  | inArgument mode read =>
    have hread := read ⟨[], config⟩
    rw [(rebases_inside e).readArgument] at hread
    obtain ⟨state, hstate, rfl⟩ := map_eq_ok_iff.1 hread
    exact .inl ⟨state, rfl, .inArgument mode fun _ => readArgument_eq_ok hstate⟩
  | comma mode mark depth regular => exact .inl ⟨s.nextSelector, rfl, .comma mode mark depth regular⟩
  | @close enclosing outer mode mark depth removed stack regular =>
    have hstack : s.outer ++ [e] = enclosing :: outer := stack
    cases houter : s.outer with
    | nil =>
      -- nothing is open but the argument itself
      rw [houter] at hstack
      cases hstack
      exact .inr rfl
    | cons inner outer =>
      rw [houter] at hstack
      obtain ⟨rfl, rfl⟩ := List.cons.inj hstack
      exact .inl ⟨s.resume inner outer, rfl, .close mode mark depth removed houter regular⟩
  | colon mode mark removed plain => exact .inl ⟨s.copyColon rest, rfl, .colon mode mark removed plain⟩
  | @openRelative name mode mark removed opens limit =>
    have hlimit : s.depth + 1 ≤ config.maxDepth := by
      have hdepth : (s.inside e).depth = s.depth + 1 := List.length_append
      omega
    exact .inl ⟨s.suspend name, rfl, .openRelative mode mark removed opens.of_inside hlimit⟩
  | @openAbsolute name mode mark removed opens remove =>
    refine .inl ⟨s.openArgument name, rfl, .openAbsolute mode mark removed opens.of_inside fun hname => ?_⟩
    exact absurd (remove hname).1 (List.append_ne_nil_of_right_ne_nil _ (List.cons_ne_nil _ _))
  | keepSpace mode space kept => exact .inl ⟨s.write t.text, rfl, .keepSpace mode space kept⟩
  | dropSpace mode space depth dropped => exact .inl ⟨s, rfl, .dropSpace mode space depth dropped⟩
  | plain mode removed ordinary =>
    have hclosing : t.text = [Mark.parenRight] → 0 < s.frame.parenDepth ∨ s.outer = [] := by
      intro hmark
      apply (ordinary.notClosing hmark).imp_right
      intro hnil
      exact absurd hnil (List.append_ne_nil_of_right_ne_nil _ (List.cons_ne_nil _ _))
    rw [(rebases_inside e).readPlain]
    exact .inl ⟨s.readPlain t, rfl,
      .plain mode removed ⟨ordinary.notComma, hclosing, ordinary.notColon, ordinary.notSpace⟩⟩

end State

/-! ### The parts of the outermost list -/

def Level.count (level : Level) : Nat := level.finished.flatten.length + level.frame.parts.length

/-- The parts of a list, one selector after the other. -/
def Level.trail (level : Level) : Selector := level.finished.flatten ++ level.frame.parts

/-- The outermost of a list and those that it interrupts. -/
def outermost (level : Level) : List Suspended → Level
  | [] => level
  | e :: outer => outermost e.level outer

theorem Level.length_trail (level : Level) : level.trail.length = level.count := List.length_append

theorem Level.trail_push (level : Level) (part : Part) :
    Level.trail { level with frame := level.frame.push part } = level.trail ++ [part] := by
  unfold Level.trail
  rw [Frame.parts_push, List.append_assoc]

theorem Level.count_push (level : Level) (part : Part) :
    Level.count { level with frame := level.frame.push part } = level.count + 1 := by
  rw [← Level.length_trail, Level.trail_push, List.length_append, Level.length_trail, List.length_singleton]

theorem Level.trail_selectors (level : Level) : level.trail <+: level.selectors.flatten := by
  have hparts : level.frame.parts <+: level.frame.allParts := by
    rcases level.frame.allParts_cases with ⟨-, hparts⟩ | ⟨-, hparts⟩
    · exact hparts ▸ List.prefix_rfl
    · exact hparts ▸ List.prefix_append _ _
  unfold Level.trail Level.selectors
  rw [List.flatten_append, List.flatten_singleton]
  exact (List.prefix_append_right_inj _).2 hparts

theorem trail_outermost {level level' : Level} (h : level.trail <+: level'.trail) (outer : List Suspended) :
    (outermost level outer).trail <+: (outermost level' outer).trail := by
  cases outer with
  | nil => exact h
  | cons e outer => exact List.prefix_rfl

namespace State

/-- The parts of the outermost list. -/
def trail (s : State) : Selector := (outermost s.level s.outer).trail

def count (s : State) : Nat := (outermost s.level s.outer).count

theorem trail_anchor (level : Level) (name : Text) :
    level.trail <+: Level.trail { level with frame := level.frame.anchor name } :=
  (List.prefix_append_right_inj _).2 (level.frame.parts_prefix_anchor name)

/-- The outermost list keeps its parts. -/
theorem Growth.keeps_trail {next : State} (h : Growth config s t next) : s.trail <+: next.trail := by
  cases h with
  | text outer finished parts input removed mode =>
    have hlevel : s.level.trail = next.level.trail := by
      unfold Level.trail
      rw [finished]
      exact congrArg _ parts.symm
    unfold trail
    rw [outer]
    exact trail_outermost (hlevel ▸ List.prefix_rfl) s.outer
  | @absolute a mode argument =>
    have hlevel : (s.endArgument a).level.trail = s.level.trail ++ [.absolute a.name a.text] :=
      s.level.trail_push (.absolute a.name a.text)
    exact trail_outermost (hlevel ▸ List.prefix_append _ _) s.outer
  | comma mode mark depth regular =>
    have hlevel : s.nextSelector.level.trail = s.level.selectors.flatten := List.append_nil _
    exact trail_outermost (hlevel ▸ s.level.trail_selectors) s.outer
  | @close enclosing outer mode mark depth removed stack regular =>
    have hlevel : (s.resume enclosing outer).level.trail = enclosing.level.trail ++ [_] :=
      enclosing.level.trail_push (.relative enclosing.name s.level.selectors)
    unfold trail
    rw [stack]
    show (outermost enclosing.level outer).trail <+: _
    exact trail_outermost (hlevel ▸ List.prefix_append _ _) outer
  | @openRelative name rest mode removed opens limit =>
    exact trail_outermost (trail_anchor s.level name) s.outer
  | @openAbsolute name rest mode removed opens remove =>
    exact trail_outermost (trail_anchor s.level name) s.outer

theorem Reaches.keeps_trail (h : Reaches config s tokens final) : s.trail <+: final.trail := by
  induction h with
  | refl s => exact List.prefix_rfl
  | step hmove h ih => exact hmove.growth.keeps_trail.trans ih

theorem Reaches.count_le (h : Reaches config s tokens final) : s.count ≤ final.count := by
  have hlength := h.keeps_trail.length_le
  rwa [trail, trail, Level.length_trail, Level.length_trail] at hlength

theorem count_resume (s : State) (e : Suspended) : (s.resume e []).count = e.level.count + 1 :=
  e.level.count_push (.relative e.name s.level.selectors)

/-- A run inside an argument is one without the interrupted list, or it gives that list a part. -/
theorem Reaches.inside_or_closed (h : Reaches config (s.inside e) tokens final) :
    (∃ state, Reaches config s tokens state ∧ final = state.inside e) ∨ e.level.count < final.count := by
  generalize hinside : s.inside e = state at h
  induction h generalizing s with
  | refl state =>
    subst hinside
    exact .inl ⟨s, .refl s, rfl⟩
  | @step state final t rest next hmove h ih =>
    subst hinside
    rcases hmove.inside_or_closed with ⟨state, hnext, hmove'⟩ | hclosed
    · rcases ih (s := state) (by rw [hnext]) with ⟨final', hfinal, rfl⟩ | hcount
      · exact .inl ⟨final', .step hmove' hfinal, rfl⟩
      · exact .inr hcount
    · right
      have hcount := h.count_le
      rw [hclosed, count_resume] at hcount
      omega

/-! ### The end of an argument -/

section

variable {before : Selector} {name : Text} {list : SelectorList} {gap : List Token}

/-- Plain text is the last part of a selector, if there is any. -/
theorem buffer_eq_nil (h : final.frame.allParts = before ++ [.relative name list]) :
    final.frame.buffer = [] ∧ final.frame.parts = before ++ [.relative name list] := by
  rcases final.frame.allParts_cases with ⟨hbuffer, hparts⟩ | ⟨-, hparts⟩
  · exact ⟨hbuffer, hparts.symm.trans h⟩
  · cases (List.append_singleton_inj.1 (hparts.symm.trans h)).2

/-- A parenthesis that makes a relative pseudo-class the last part ends the argument of that class. -/
theorem Move.close_of_relative (h : Move config s t [] next) (hmode : s.mode = .regular)
    (hmark : t.text = [Mark.parenRight]) (hlast : next.state.frame.allParts = before ++ [.relative name list]) :
    s.frame.parenDepth = 0 ∧ s.frame.allParts.any Part.isRegular = true ∧
      ∃ enclosing outer, s.outer = enclosing :: outer ∧ next.state = s.resume enclosing outer := by
  have hspace : t.isOf Text.isSpace = false := Token.isOf_of_text hmark _
  cases h with
  | inAttribute mode read => cases hmode.symm.trans mode
  | inArgument mode read => cases hmode.symm.trans mode
  | comma mode mark depth regular => cases hmark.symm.trans mark
  | close mode mark depth removed stack regular => exact ⟨depth, regular, _, _, stack, rfl⟩
  | colon mode mark removed plain => cases hmark.symm.trans mark
  | openRelative mode mark removed opens limit => cases hmark.symm.trans mark
  | openAbsolute mode mark removed opens remove => cases hmark.symm.trans mark
  | keepSpace mode space kept => cases hspace.symm.trans space
  | dropSpace mode space depth dropped => cases hspace.symm.trans space
  | plain mode removed ordinary =>
    have hbuffer := (buffer_eq_nil hlast).1
    rw [buffer_readPlain, hmark] at hbuffer
    cases (List.append_eq_nil_iff.1 hbuffer).2

theorem Reaches.close_of_relative (h : Reaches config s (gap ++ [t]) final) (hmode : s.mode = .regular)
    (hgap : ∀ u ∈ gap, u.Proper ∧ u.isOf Text.isSpace = true) (ht : t.Proper)
    (hmark : t.text = [Mark.parenRight]) (hlast : final.frame.allParts = before ++ [.relative name list]) :
    s.frame.parenDepth = 0 ∧ s.frame.allParts.any Part.isRegular = true ∧
      ∃ enclosing outer, s.outer = enclosing :: outer ∧ final = s.resume enclosing outer := by
  induction gap generalizing s with
  | nil =>
    cases h with
    | step hmove h =>
      have hend := h
      rw [List.drop_nil] at hend
      cases hend
      exact hmove.close_of_relative hmode hmark hlast
  | cons u gap ih =>
    have hspace := (hgap u (by simp)).2
    have hgap' : ∀ v ∈ gap, v.Proper ∧ v.isOf Text.isSpace = true := fun v hv => hgap v (by simp [hv])
    by_cases hdepth : 0 < s.frame.parenDepth
    · -- inside parentheses of plain text, the last parenthesis would be plain text, too
      have hkept := h.of_move (.keepSpace hmode hspace (.inl hdepth))
      have hzero := (ih hkept hmode hgap').1
      rw [frame_write, Frame.parenDepth_write] at hzero
      omega
    · have hhead : Token.continuesAfterSpace (gap ++ [t]).head? = false :=
        Token.continuesAfterSpace_spaces hgap' ht (.inr hmark)
      exact ih (h.of_move (.dropSpace hmode hspace (by omega) fun _ => hhead)) hmode hgap'

/-- Only plain text goes on to that parenthesis. -/
theorem Reaches.mode_of_relative (h : Reaches config s (gap ++ [t]) final) (hfinal : final.mode = .regular)
    (hgap : ∀ u ∈ gap, u.Proper ∧ u.isOf Text.isSpace = true) (hmark : t.text = [Mark.parenRight])
    (hlast : final.frame.allParts = before ++ [.relative name list]) : s.mode = .regular := by
  have hne : ∀ u ∈ gap, ∀ d, Text.isSpace d = false → u.text ≠ [d] :=
    fun u hu _ => Token.text_ne_of_isSpace (hgap u hu).2
  rcases hmode : s.mode with _ | body | a
  · rfl
  · refine absurd hfinal (h.attribute hmode fun u hu => ?_)
    rcases List.mem_append.1 hu with hu | hu
    · exact hne u hu _ (by decide)
    · rw [List.mem_singleton.1 hu, hmark]
      decide
  · obtain ⟨b, -, -, -, rfl⟩ := h.argument hmode (fun u hu => hne u hu _ (by decide)) hfinal
    have hparts := (buffer_eq_nil hlast).2
    rw [parts_endArgument] at hparts
    cases (List.append_singleton_inj.1 hparts).2

/-- Where a parenthesis makes the argument of a relative pseudo-class the last part of the result, and this is the only
part that the interrupted list gets, the tokens before the parenthesis are the argument. -/
theorem Reaches.of_call (h : Reaches config (s.inside e) (tokens ++ (gap ++ [t])) final)
    (htrimmed : Token.Trimmed tokens) (hgap : ∀ u ∈ gap, u.Proper ∧ u.isOf Text.isSpace = true) (ht : t.Proper)
    (hmark : t.text = [Mark.parenRight]) (hmode : final.mode = .regular) (houter : final.outer = [])
    (hlast : final.frame.allParts = before ++ [.relative name list]) (hcount : final.count ≤ e.level.count + 1) :
    ∃ state, Reaches config s tokens state ∧ state.mode = .regular ∧ state.outer = [] ∧
      state.frame.allParts.any Part.isRegular = true ∧ list = state.level.selectors := by
  have hdetached : Detached [t] := by
    intro u hu
    obtain rfl : t = u := Option.some.inj hu
    refine ⟨ht.isWord_of_text hmark (by decide), ?_⟩
    rw [hmark]
    decide
  obtain ⟨mid, flag, hend, hbefore⟩ := h.split (hdetached.spaces hgap) htrimmed
  have hmid : mid.mode = .regular := hend.mode_of_relative hmode hgap hmark hlast
  obtain ⟨-, hregular, enclosing, outer, hstack, rfl⟩ := hend.close_of_relative hmid hgap ht hmark hlast
  obtain rfl : outer = [] := houter
  rcases hbefore.inside_or_closed with ⟨state, hstate, hinside⟩ | hearly
  · have hlevel : (mid.flagged flag).level = (state.inside e).level := congrArg State.level hinside
    have hstack' : [] ++ [enclosing] = state.outer ++ [e] := hstack.symm.trans (congrArg State.outer hinside)
    obtain ⟨hnil, -⟩ := List.append_singleton_inj.1 hstack'
    have hparts := (buffer_eq_nil hlast).2
    rw [frame_resume, Frame.parts_push] at hparts
    cases (List.append_singleton_inj.1 hparts).2
    refine ⟨state, hstate, (congrArg State.mode hinside).symm.trans hmid, hnil.symm, ?_, ?_⟩
    · show (state.inside e).level.frame.allParts.any Part.isRegular = true
      rw [← hlevel]
      exact hregular
    · show _ = (state.inside e).level.selectors
      rw [← hlevel]
      rfl
  · -- the argument has ended before, and the last parenthesis adds another part
    have hopen : (mid.flagged flag).count = enclosing.level.count := by
      unfold count
      show (outermost _ mid.outer).count = _
      rw [hstack]
      rfl
    rw [count_resume] at hcount
    omega

end

end State

end Selector

/-! ### Texts with an argument -/

/-- Every known name is a word in lower case. -/
theorem PseudoClass.supportedNames_spec : ∀ name ∈ PseudoClass.supportedNames, name ≠ [] ∧
    (∀ c ∈ name, isMark c = false) ∧ Text.lower name = name := by
  have hall : ∀ name ∈ PseudoClass.supportedNames, name ≠ [] ∧ (name.all fun c => !isMark c) = true ∧
      Text.lower name = name := by decide
  intro name hname
  obtain ⟨hne, hmarks, hlower⟩ := hall name hname
  exact ⟨hne, by simpa using hmarks, hlower⟩

theorem PseudoClass.kind?_relative : ∀ name ∈ PseudoClass.relativeNames,
    name ∈ PseudoClass.supportedNames ∧ PseudoClass.kind? name = some .relative := by decide

namespace SelectorList

open Selector

variable {config : Config} {name b rest : Text} {list : SelectorList}

/-- The text of the word `x` and a pseudo-class with an argument. -/
def callOfWord (name argument : Text) : Text :=
  'x' :: Mark.colon :: (name ++ Mark.parenLeft :: (argument ++ [Mark.parenRight]))

theorem trimSpace_callOfWord (name argument : Text) :
    Text.trimSpace (callOfWord name argument) = callOfWord name argument := by
  apply Text.trim_eq_self
  · intro c hc
    cases hc
    rfl
  · intro c hc
    have hend : callOfWord name argument =
        ('x' :: Mark.colon :: (name ++ Mark.parenLeft :: argument)) ++ [Mark.parenRight] := by
      simp [callOfWord]
    rw [hend, List.getLast?_concat] at hc
    cases hc
    rfl

/-- The tokens of the word and the pseudo-class around those of the argument. -/
theorem scan_callOfWord (hname : name ∈ PseudoClass.supportedNames) (argument : Text) :
    ∃ k p r, Token.scan (callOfWord name argument) =
      ⟨.word, ['x'], 0⟩ :: ⟨.mark, [Mark.colon], 1⟩ :: ⟨.word, name, 2⟩ :: ⟨.mark, [Mark.parenLeft], k⟩ ::
        (Token.scanFrom p argument ++ [⟨.mark, [Mark.parenRight], r⟩]) := by
  obtain ⟨hne, hmarks, -⟩ := PseudoClass.supportedNames_spec name hname
  have hstart : Token.scan (callOfWord name argument) = ⟨.word, ['x'], 0⟩ :: ⟨.mark, [Mark.colon], 1⟩ ::
      Token.scanFrom 2 (name ++ Mark.parenLeft :: (argument ++ [Mark.parenRight])) := rfl
  have hparen : ∀ c, [Mark.parenRight].head? = some c → isMark c = true := by
    intro c hc
    cases hc
    rfl
  have hword : ∀ t, (Token.scanFrom (2 + name.length)
      (Mark.parenLeft :: (argument ++ [Mark.parenRight]))).head? = some t → t.isWord = false := by
    intro t ht
    cases ht
    rfl
  refine ⟨2 + name.length, 2 + name.length + 1, 2 + name.length + 1 + argument.length, ?_⟩
  rw [hstart, Token.scanFrom_word hne hmarks hword]
  show _ :: _ :: _ :: _ :: Token.scanFrom _ (argument ++ [Mark.parenRight]) = _
  rw [Token.scanFrom_append hparen]
  rfl

theorem scan_callOfWord_trimmed (hname : name ∈ PseudoClass.supportedNames)
    (hrest : Text.trimSpace (Mark.comma :: b) = Mark.comma :: rest) :
    ∃ gap k p q r, (∀ c ∈ gap, Text.isSpace c = true) ∧ Token.scan (callOfWord name b) =
      ⟨.word, ['x'], 0⟩ :: ⟨.mark, [Mark.colon], 1⟩ :: ⟨.word, name, 2⟩ :: ⟨.mark, [Mark.parenLeft], k⟩ ::
        (Token.scanFrom p rest ++ (Token.scanFrom q gap ++ [⟨.mark, [Mark.parenRight], r⟩])) := by
  obtain ⟨gap, rfl, hgap⟩ := Text.exists_gap_of_trim_cons rfl hrest
  obtain ⟨k, p, r, htokens⟩ := scan_callOfWord hname (rest ++ gap)
  refine ⟨gap, k, p, p + rest.length, r, hgap, ?_⟩
  rw [htokens, Token.scanFrom_append fun c hc => Token.isMark_of_isSpace (hgap c (List.mem_of_head? hc)),
    List.append_assoc]

theorem move_word (ahead : List Token) :
    State.Move config .start ⟨.word, ['x'], 0⟩ ahead { state := State.start.write ['x'] } :=
  .plain rfl (.inl rfl) ⟨nofun, nofun, by decide, rfl⟩

/-- Reading the word and the start of the pseudo-class leads into its argument. -/
theorem reaches_argument {final : State} {k : Nat} {tokens : List Token} (hname : name ∈ PseudoClass.relativeNames)
    (h : State.Reaches config .start (⟨.word, ['x'], 0⟩ :: ⟨.mark, [Mark.colon], 1⟩ :: ⟨.word, name, 2⟩ ::
      ⟨.mark, [Mark.parenLeft], k⟩ :: tokens) final) :
    ∃ e : Suspended, e.level.count = 1 ∧ State.Reaches config (({} : State).inside e) tokens final := by
  obtain ⟨hsupported, hkind⟩ := PseudoClass.kind?_relative name hname
  obtain ⟨-, -, hlower⟩ := PseudoClass.supportedNames_spec name hsupported
  have hcolon : State.Move config (State.start.write ['x']) ⟨.mark, [Mark.colon], 1⟩
      (⟨.word, name, 2⟩ :: ⟨.mark, [Mark.parenLeft], k⟩ :: tokens) _ :=
    State.move_openOutermost rfl rfl rfl rfl rfl rfl rfl (by rw [hlower, hkind]) rfl
  have hopened := (h.of_move (move_word _)).of_move hcolon
  rw [hlower] at hopened
  refine ⟨⟨name, { frame := (State.start.write ['x']).frame.anchor name }⟩, ?_, hopened⟩
  unfold Level.count
  rcases (State.start.write ['x']).frame.parts_anchor name with ⟨hbuffer, -⟩ | ⟨-, hparts⟩
  · cases hbuffer
  · rw [hparts]
    rfl

/-- An argument that is compiled inside a pseudo-class is compiled after a comma. -/
theorem compileRest_of_argument (selector : Text) (hname : name ∈ PseudoClass.relativeNames)
    (hrest : Text.trimSpace (Mark.comma :: b) = Mark.comma :: rest)
    (h : compile config (callOfWord name b) = .ok [[.regular ['x'], .relative name list]]) :
    compileRest ⟨selector, config⟩ rest = .ok list := by
  obtain ⟨-, final, hrun, hmode, houter, -, hlist⟩ := compile_eq_ok_iff.1 h
  obtain ⟨gap, k, p, q, r, hgap, htokens⟩ := scan_callOfWord_trimmed (PseudoClass.kind?_relative name hname).1 hrest
  rw [trimSpace_callOfWord, htokens] at hrun
  have hwhole : State.Reaches config .start _ final := State.reaches_of_run hrun
  obtain ⟨e, he, hreaches⟩ := reaches_argument hname hwhole
  have hparts : final.frame.allParts = [.regular ['x']] ++ [.relative name list] := by
    have hselectors : final.level.finished ++ [final.frame.allParts] = [] ++ [_] := hlist.symm
    exact (List.append_singleton_inj.1 hselectors).2
  have hcount : final.count ≤ e.level.count + 1 := by
    have hle := final.level.trail_selectors.length_le
    rw [Level.length_trail, ← hlist] at hle
    unfold State.count
    rw [houter, he]
    exact hle
  have hlast : ∀ c, rest.getLast? = some c → Text.isSpace c = false := by
    intro c hc
    have hend : (Text.trimSpace (Mark.comma :: b)).getLast? = some c := by
      rw [hrest, List.getLast?_cons, hc]
      rfl
    exact Text.getLast?_trim hend
  obtain ⟨state, hstate, hmode', houter', hregular, rfl⟩ :=
    hreaches.of_call (Token.trimmed_scanFrom p hlast) (Token.scanFrom_spaces q hgap) (Token.proper_mark r rfl) rfl
      hmode houter hparts hcount
  have hrun' : ({} : State).run ⟨selector, config⟩ 0 (Token.scanFrom p rest) = .ok state := hstate.run_eq
  rw [Token.scanFrom_eq_placed, State.run_placed] at hrun'
  exact bind_eq_ok_iff.2 ⟨state, hrun', State.finish_eq_ok_iff.2 ⟨hmode', houter', hregular, rfl⟩⟩

/-- The text of the argument of a relative pseudo-class is compiled to the same list outside, after a comma. -/
theorem parse_argument_outside (hname : name ∈ PseudoClass.relativeNames)
    (h : parse config ('x' :: Mark.colon :: (name ++ Mark.parenLeft :: (b ++ [Mark.parenRight]))) =
      .ok [[.regular ['x'], .relative name list]]) :
    parse config ('x' :: Mark.comma :: b) = .ok ([.regular ['x']] :: list) := by
  obtain ⟨rest, hrest⟩ := Text.exists_trim_cons (p := Text.isSpace) (c := Mark.comma) rfl b
  rw [parse_eq_compile] at h ⊢
  rw [compile_word_comma hrest, compileRest_of_argument _ hname hrest h]
  rfl

theorem parse_argument_outside_nested :
    "not".toList ∈ PseudoClass.relativeNames ∧
      parse .standard ('x' :: Mark.colon :: ("not".toList ++ Mark.parenLeft ::
          (" > p:has(q), [a=\")\"]:contains(()) ".toList ++ [Mark.parenRight]))) =
        .ok [[.regular ['x'], .relative "not".toList
          [[.regular "> p".toList, .relative "has".toList [[.regular ['q']]]],
            [.regular "[a=\")\"]".toList, .absolute "contains".toList "()".toList]]]] ∧
      parse .standard ('x' :: Mark.comma :: " > p:has(q), [a=\")\"]:contains(()) ".toList) =
        .ok [[.regular ['x']], [.regular "> p".toList, .relative "has".toList [[.regular ['q']]]],
          [.regular "[a=\")\"]".toList, .absolute "contains".toList "()".toList]] := by
  have hname : "not".toList ∈ PseudoClass.relativeNames := by decide
  have h : parse .standard ('x' :: Mark.colon :: ("not".toList ++ Mark.parenLeft ::
        (" > p:has(q), [a=\")\"]:contains(()) ".toList ++ [Mark.parenRight]))) =
      .ok [[.regular ['x'], .relative "not".toList
        [[.regular "> p".toList, .relative "has".toList [[.regular ['q']]]],
          [.regular "[a=\")\"]".toList, .absolute "contains".toList "()".toList]]]] :=
    (parse_eq_compile _ _).trans (eq_ok_of_toOption (by decide +kernel))
  exact ⟨hname, h, parse_argument_outside hname h⟩

end SelectorList

end CosmeticFilter
