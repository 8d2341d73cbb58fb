import CosmeticFilter.Proofs.Totality

/-!
# Every call moves the cursor

`Selector.Descent.calls_advance` says of the recursive descent, for every list of tokens, that each pass of the
loop and each call that reads a colon, a relative or an absolute pseudo-class returns with the cursor further on and
not behind the end of the tokens, that a call for an argument returns right after the parenthesis that ends it, and
that the outermost call returns with all tokens read. It also says that the outermost call ends, and that no more
calls than the limit of the configuration are ever nested in it.

The tokens need not be those of a text, so the descent is not compared with the machine here. A call is described on
its own by `Ends`: what holds of a result that it returns, whatever it is called with, and that nothing it asks for is
missing, where it is called as the loop calls it (`Ready`). `collect_ends`, `absolute_ends`, `relative_ends`,
`colon_ends` and `pass_ends` say so of one kind of call each, and `loop_ends` of the loop, by induction on the fuel.
-/

namespace CosmeticFilter

open Outcome

/-! ### What holds of a result -/

/-- `P` holds of the result that the computation returns, if it returns one. Where it is `ready`, nothing that it asks
for is missing. -/
structure Ends {α : Type} (ready : Prop) (r : Outcome α) (P : α → Prop) : Prop where
  returns : ∀ a, r = pure a → P a
  present : ready → ∃ x, r = total x

namespace Ends

variable {α β : Type} {ready : Prop} {r : Outcome α} {P : α → Prop} {Q : β → Prop}

theorem pure {a : α} (h : P a) : Ends ready (Pure.pure a) P := by
  refine ⟨fun b hb => ?_, fun _ => ⟨.ok a, rfl⟩⟩
  cases hb
  exact h

theorem fail {fault : Fault} : Ends ready (Outcome.fail fault) P := ⟨nofun, fun _ => ⟨.error fault, rfl⟩⟩

theorem missing (h : ¬ready) : Ends ready (found (none : Option α)) P := ⟨nofun, fun hready => absurd hready h⟩

theorem imp {ready' : Prop} {P' : α → Prop} (h : Ends ready r P) (hready : ready' → ready) (hP : ∀ a, P a → P' a) :
    Ends ready' r P' :=
  ⟨fun a ha => hP a (h.returns a ha), fun hr => h.present (hready hr)⟩

theorem bind {f : α → Outcome β} (h : Ends ready r P) (hf : ∀ a, P a → Ends ready (f a) Q) :
    Ends ready (r >>= f) Q := by
  rcases hr : r with _ | fault | a
  · refine .missing fun hready => ?_
    obtain ⟨x, hx⟩ := h.present hready
    cases hr.symm.trans hx
  · exact .fail
  · exact hf a (h.returns a hr)

theorem total_bind {x : Except Fault α} {f : α → Outcome β} (hf : ∀ a, x = .ok a → Ends ready (f a) Q) :
    Ends ready (total x >>= f) Q := by
  cases x with
  | error fault => exact .fail
  | ok a => exact hf a rfl

theorem found_bind {x : Option α} {f : α → Outcome β} (hx : ready → x ≠ none)
    (hf : ∀ a, x = some a → Ends ready (f a) Q) : Ends ready (found x >>= f) Q := by
  cases x with
  | none => exact .missing fun hready => hx hready rfl
  | some a => exact hf a rfl

theorem holds_bind {p : Prop} [Decidable p] {f : Unit → Outcome β} (hp : ready → p)
    (hf : p → Ends ready (f ()) Q) : Ends ready (holds p >>= f) Q := by
  rw [holds]
  split
  · next h => exact hf h
  · next h => exact .missing fun hready => h (hp hready)

end Ends

namespace Selector.Descent

variable {input : Input} {tokens : List Token} {s : State} {t : Token} {fuel depth : Nat} {c : Cursor} {name : Text}

/-! ### Moving on -/

/-- The cursor `c'` is further on than `c`, and not behind the end of the tokens. -/
structure Advances (tokens : List Token) (c c' : Cursor) : Prop where
  lt : c.position < c'.position
  bound : c'.position ≤ tokens.length

theorem advances_one (h : c.position < tokens.length) : Advances tokens c (c.advance 1) := ⟨Nat.lt_succ_self _, h⟩

theorem Advances.trans {c₁ c₂ : Cursor} (h : Advances tokens c c₁) (h' : Advances tokens c₁ c₂) :
    Advances tokens c c₂ :=
  ⟨h.lt.trans h'.lt, h'.bound⟩

/-- A call with the cursor `c` is inside `count` arguments, and its fuel lasts to the end of the tokens. -/
structure Ready (tokens : List Token) (fuel count : Nat) (c : Cursor) : Prop where
  bound : c.position ≤ tokens.length
  names : c.openNames.length = count
  fuel : tokens.length - c.position < fuel

namespace Ready

theorem next {c' : Cursor} (h : Ready tokens (fuel + 1) depth c) (hadvances : Advances tokens c c')
    (hnames : c'.openNames = c.openNames) : Ready tokens fuel depth c' := by
  obtain ⟨hbound, hopen, hfuel⟩ := h
  obtain ⟨hlt, hbound'⟩ := hadvances
  exact ⟨hbound', hnames ▸ hopen, by omega⟩

theorem push (h : Ready tokens fuel depth c) (name : Text) : Ready tokens fuel (depth + 1) (c.push name) :=
  ⟨h.bound, congrArg Nat.succ h.names, h.fuel⟩

theorem innermost_ne (h : Ready tokens fuel depth c) (hdepth : 0 < depth) : c.openNames.head? ≠ none := by
  intro hnone
  have hnames := h.names
  rw [List.head?_eq_none_iff.1 hnone] at hnames
  exact hdepth.ne hnames

end Ready

/-- The cursor `c'` stands right after the parenthesis that ends the argument at the cursor `c`. -/
def Closes (tokens : List Token) (c c' : Cursor) : Prop :=
  c'.openNames = c.openNames ∧ Ended tokens c.position c'

theorem Closes.advances {c' : Cursor} (h : Closes tokens c c') : Advances tokens c c' := ⟨h.2.lt, h.2.bound⟩

theorem closes_one (ht : tokens[c.position]? = some t) (hparen : t.text = [Mark.parenRight]) :
    Closes tokens c (c.advance 1) := by
  have hbefore := textBefore_succ ht
  rw [hparen] at hbefore
  exact ⟨rfl, Nat.lt_succ_self _, (List.getElem?_eq_some_iff.1 ht).1, hbefore⟩

/-- What a call that reads a pseudo-class returns: the selector goes on as plain text, inside the same arguments. -/
structure Proceeds (tokens : List Token) (s : State) (c : Cursor) (result : State × Cursor) : Prop where
  mode : s.mode = .regular → result.1.mode = .regular
  names : result.2.openNames = c.openNames
  advances : Advances tokens c result.2

/-- What calls before the cursor `c₁` have read is read too. -/
theorem Proceeds.of_next {c₁ : Cursor} {result : State × Cursor} (h : Proceeds tokens s c₁ result)
    (hadvances : Advances tokens c c₁) (hnames : c₁.openNames = c.openNames) : Proceeds tokens s c result :=
  ⟨h.mode, h.names.trans hnames, hadvances.trans h.advances⟩

/-! ### Arguments of absolute pseudo-classes -/

/-- By induction on the fuel; every token but the last one is kept, and the call goes on. -/
theorem collect_ends {a : Argument} :
    Ends (Ready tokens fuel (depth + 1) c) (collect input tokens depth fuel a c) fun r => Closes tokens c r.2 := by
  induction fuel generalizing a c with
  | zero => exact .missing fun h => Nat.not_lt_zero _ h.fuel
  | succ fuel ih =>
    rw [collect]
    refine .holds_bind (fun h => ⟨h.bound, h.names⟩) fun _ => ?_
    cases ht : tokens[c.position]? with
    | none =>
      dsimp only
      split
      · exact .fail
      · exact .fail
    | some t =>
      have hadvances : Advances tokens c (c.advance 1) := advances_one (List.getElem?_eq_some_iff.1 ht).1
      have keep : ∀ a', Ends (Ready tokens (fuel + 1) (depth + 1) c)
          (collect input tokens depth fuel a' (c.advance 1)) fun r => Closes tokens c r.2 := fun a' =>
        ih.imp (fun h => h.next hadvances rfl) fun r h => ⟨h.1, h.2.of_next hadvances.lt.le⟩
      dsimp only
      split
      · exact keep _
      · split
        · refine .holds_bind (fun h => ?_) fun _ => .total_bind fun _ _ => keep _
          rw [← List.length_pos_iff, h.names]
          exact Nat.succ_pos _
        · split
          · exact keep _
          · split
            · next hparen =>
              split
              · exact .pure (closes_one ht (Token.spells_iff.1 hparen))
              · exact keep _
            · exact keep _

theorem checkRemove_ends :
    Ends (Ready tokens fuel depth c) (checkRemove input depth s c) fun _ => True := by
  rw [checkRemove]
  split
  · next hdepth => exact .found_bind (fun h => h.innermost_ne hdepth) fun _ _ => .fail
  · split
    · exact .fail
    · exact .pure trivial

theorem absolute_ends :
    Ends (Ready tokens fuel depth c) (absolute input tokens fuel depth name s c) (Proceeds tokens s c) := by
  have hcheck : Ends (Ready tokens fuel depth c)
      (if name = PseudoClass.removeName then checkRemove input depth s c else pure ()) fun _ => True := by
    split
    · exact checkRemove_ends
    · exact .pure trivial
  rw [absolute]
  refine hcheck.bind fun _ _ => ?_
  refine (collect_ends.imp (fun h => h.push name) fun _ h => h).bind ?_
  rintro ⟨text, c'⟩ hcloses
  refine .holds_bind (fun _ => hcloses.1) fun hrestored => ?_
  rw [pop_eq hrestored, pure_bind]
  refine .total_bind fun s' hs' => .pure ?_
  obtain ⟨-, rfl⟩ := State.closeArgument_eq_ok_iff.1 hs'
  exact ⟨fun _ => rfl, rfl, hcloses.2.lt, hcloses.2.bound⟩

/-! ### Arguments of relative pseudo-classes -/

/-- Every call of `selectors` for an argument returns right after the parenthesis that ends it. -/
def ReadsArguments (tokens : List Token) (fuel : Nat)
    (selectors : Nat → Cursor → Outcome (SelectorList × Cursor)) : Prop :=
  ∀ depth c, Ends (Ready tokens fuel (depth + 1) c) (selectors (depth + 1) c) fun r => Closes tokens c r.2

section

variable {selectors : Nat → Cursor → Outcome (SelectorList × Cursor)}

theorem relative_ends (hread : ReadsArguments tokens fuel selectors) :
    Ends (Ready tokens fuel depth c) (relative input selectors depth name s c) (Proceeds tokens s c) := by
  rw [relative]
  split
  · exact .fail
  · refine ((hread depth (c.push name)).imp (fun h => h.push name) fun _ h => h).bind ?_
    rintro ⟨list, c'⟩ hcloses
    refine .holds_bind (fun _ => hcloses.1) fun hrestored => ?_
    rw [pop_eq hrestored, pure_bind]
    exact .pure ⟨fun hmode => hmode, rfl, hcloses.2.lt, hcloses.2.bound⟩

/-! ### Colons -/

theorem colon_ends (hread : ReadsArguments tokens fuel selectors) (hlt : c.position < tokens.length) :
    Ends (Ready tokens (fuel + 1) depth c) (colon input tokens selectors fuel depth s c) (Proceeds tokens s c) := by
  have hcopy : Ends (Ready tokens (fuel + 1) depth c)
      (pure (s.copyColon (tokens.drop (c.position + 1)), c.advance 1)) (Proceeds tokens s c) :=
    .pure ⟨fun hmode => hmode, rfl, advances_one hlt⟩
  rw [colon]
  split
  · exact hcopy
  · next name kind _ =>
    split
    · exact .total_bind fun _ _ => hcopy
    · refine .total_bind fun _ _ => .total_bind fun _ _ => ?_
      split
      · next hopens =>
        have hadvances : Advances tokens c (c.advance 3) := ⟨Nat.lt_add_of_pos_right (by decide), (openedBy hopens).1⟩
        cases kind with
        | relative => exact (relative_ends hread).imp (fun h => h.next hadvances rfl) fun _ h => h.of_next hadvances rfl
        | absolute => exact absolute_ends.imp (fun h => h.next hadvances rfl) fun _ h => h.of_next hadvances rfl
      · exact .fail

/-! ### Selector lists -/

theorem finishSelector_ends {ready : Prop} : Ends ready (finishSelector input s) fun _ => True := by
  rw [finishSelector]
  split
  · exact .fail
  · exact ⟨fun _ _ => trivial, fun _ => ⟨_, rfl⟩⟩

theorem mode_readPlain (hmode : s.mode = .regular) (previous : Option Text) (a : Argument) :
    (readPlain previous t s).mode ≠ .argument a := by
  have hne : s.mode ≠ .argument a := by simp [hmode]
  rw [readPlain]
  dsimp only
  split
  · simp
  · split
    · exact hne
    · split
      · exact hne
      · exact hne

namespace Pass

/-- Where the cursor is after the pass. -/
def cursor : Pass → Cursor
  | .returns _ c => c
  | .repeats _ c => c

/-- What a pass at the cursor `c` returns, inside `depth` arguments. -/
def Proceeds (tokens : List Token) (depth : Nat) (c : Cursor) : Pass → Prop
  | .returns _ c' => 0 < depth ∧ Closes tokens c c'
  | .repeats s' c' => (∀ a, s'.mode ≠ .argument a) ∧ c'.openNames = c.openNames ∧ Advances tokens c c'

theorem Proceeds.advances {next : Pass} (h : next.Proceeds tokens depth c) : Advances tokens c next.cursor := by
  cases next with
  | returns list c' => exact h.2.advances
  | repeats s' c' => exact h.2.2

end Pass

theorem readRegular_ends (hread : ReadsArguments tokens fuel selectors) (hmode : s.mode = .regular)
    (ht : tokens[c.position]? = some t) :
    Ends (Ready tokens (fuel + 1) depth c) (readRegular input tokens selectors fuel depth t s c)
      (Pass.Proceeds tokens depth c) := by
  have hlt : c.position < tokens.length := (List.getElem?_eq_some_iff.1 ht).1
  have hregular : ∀ a, s.mode ≠ .argument a := fun a => by simp [hmode]
  -- Reading plain text, and a comma, moves the cursor by one token.
  have hone : ∀ s' : State, (∀ a, s'.mode ≠ .argument a) → Ends (Ready tokens (fuel + 1) depth c)
      (pure (.repeats s' (c.advance 1))) (Pass.Proceeds tokens depth c) := fun s' hmode' =>
    .pure ⟨hmode', rfl, advances_one hlt⟩
  rw [readRegular]
  refine .total_bind fun _ _ => ?_
  split
  · exact finishSelector_ends.bind fun selector _ => hone _ hregular
  · split
    · next hparen =>
      obtain ⟨-, hparen, hdepth⟩ := hparen
      rw [closeList]
      split
      · exact .found_bind (fun h => h.innermost_ne hdepth) fun _ _ => .fail
      · exact finishSelector_ends.bind fun _ _ => .pure ⟨hdepth, closes_one ht (Token.spells_iff.1 hparen)⟩
    · split
      · refine (colon_ends hread hlt).bind ?_
        rintro ⟨s', c'⟩ ⟨hkept, hnames, hadvances⟩
        have hregular' : s'.mode = .regular := hkept hmode
        exact .pure ⟨fun a => by simp [hregular'], hnames, hadvances⟩
      · split
        · refine hone _ ?_
          rcases State.readSpace_cases s t (tokens.drop (c.position + 1)) with heq | ⟨heq, -⟩
          · rw [heq]
            exact hregular
          · rw [heq]
            exact hregular
        · rw [previous_eq hlt.le, pure_bind]
          exact hone _ (mode_readPlain hmode _)

theorem pass_ends (hread : ReadsArguments tokens fuel selectors) (ht : tokens[c.position]? = some t) :
    Ends (Ready tokens (fuel + 1) depth c ∧ ∀ a, s.mode ≠ .argument a) (pass input tokens selectors fuel depth t s c)
      (Pass.Proceeds tokens depth c) := by
  have hlt : c.position < tokens.length := (List.getElem?_eq_some_iff.1 ht).1
  rw [pass]
  rcases hmode : s.mode with _ | body | a
  · exact (readRegular_ends hread hmode ht).imp And.left fun _ h => h
  · dsimp only
    rw [readAttribute_eq]
    refine .total_bind fun s' hs' => .pure ⟨?_, rfl, advances_one hlt⟩
    rcases State.readAttribute_cases hs' with ⟨-, rfl⟩ | ⟨-, -, rfl⟩
    · simp
    · simp
  · exact .missing fun h => h.2 a rfl

end

/-- What a call of the loop returns, inside `depth` arguments: it closes the innermost one, or has read all tokens. -/
structure Finishes (tokens : List Token) (depth : Nat) (c c' : Cursor) : Prop where
  names : c'.openNames = c.openNames
  ended : 0 < depth → Ended tokens c.position c'
  all : depth = 0 → c'.position = tokens.length

theorem endList_ends (hbound : c.position ≤ tokens.length) (ht : tokens[c.position]? = none) :
    Ends (Ready tokens fuel depth c) (endList input depth s c) fun r => Finishes tokens depth c r.2 := by
  have hend : c.position = tokens.length := le_antisymm hbound (List.getElem?_eq_none_iff.1 ht)
  rw [endList]
  split
  · next hdepth => exact .found_bind (fun h => h.innermost_ne hdepth) fun _ _ => .fail
  · next hdepth => exact finishSelector_ends.bind fun _ _ => .pure ⟨rfl, fun h => absurd h hdepth, fun _ => hend⟩

/-- By induction on the fuel; the lists of arguments are read by the same loop, with the fuel that is left. -/
theorem loop_ends : Ends (Ready tokens fuel depth c ∧ ∀ a, s.mode ≠ .argument a) (loop input tokens fuel depth s c)
    fun r => Finishes tokens depth c r.2 := by
  induction fuel generalizing depth s c with
  | zero => exact .missing fun h => Nat.not_lt_zero _ h.1.fuel
  | succ fuel ih =>
    have hread : ReadsArguments tokens fuel fun depth c => loop input tokens fuel depth {} c := fun depth _ =>
      ih.imp (fun h => ⟨h, by simp⟩) fun _ h => ⟨h.names, h.ended (Nat.succ_pos depth)⟩
    rw [loop]
    refine .holds_bind (fun h => ⟨h.1.bound, h.1.names⟩) fun hholds => ?_
    cases ht : tokens[c.position]? with
    | none => exact (endList_ends hholds.1 ht).imp And.left fun _ h => h
    | some t =>
      refine (pass_ends hread ht).bind fun next hnext => ?_
      cases next with
      | returns list c' =>
        obtain ⟨hdepth, hnames, hended⟩ := hnext
        exact .pure ⟨hnames, fun _ => hended, fun h => absurd h hdepth.ne'⟩
      | repeats s' c' =>
        obtain ⟨hmode, hnames, hadvances⟩ := hnext
        refine ih.imp (fun h => ⟨h.1.next hadvances hnames, hmode⟩) fun r h => ?_
        exact ⟨h.names.trans hnames, fun hdepth => (h.ended hdepth).of_next hadvances.lt.le, h.all⟩

/-! ### Room for nested calls -/

/-- The loop where only `levels` calls of it may be nested in this one. A call for which there is no room asks for
something that is not there. -/
def loopWithin (input : Input) (tokens : List Token) :
    (levels fuel depth : Nat) → State → Cursor → Outcome (SelectorList × Cursor)
  | _, 0, _, _, _ => found none
  | levels, fuel + 1, depth, s, c => do
    holds (c.position ≤ tokens.length ∧ c.openNames.length = depth)
    match tokens[c.position]? with
    | none => endList input depth s c
    | some t =>
      let selectors := fun depth c => do
        holds (0 < levels)
        loopWithin input tokens (levels - 1) fuel depth {} c
      let next ← pass input tokens selectors fuel depth t s c
      match next with
      | .returns list c => pure (list, c)
      | .repeats s c => loopWithin input tokens levels fuel depth s c

section

variable {selectors selectors' : Nat → Cursor → Outcome (SelectorList × Cursor)}

/-- A relative pseudo-class calls for one list at most, and for none where the limit is reached. -/
theorem relative_congr (h : depth < input.config.maxDepth → ∀ c, selectors (depth + 1) c = selectors' (depth + 1) c) :
    relative input selectors depth = relative input selectors' depth := by
  funext name s c
  rw [relative, relative]
  split
  · rfl
  · next hlimit =>
    have hlist := h (Nat.lt_of_succ_le (Nat.not_lt.1 hlimit)) (c.push name)
    dsimp only
    rw [hlist]

theorem colon_congr (h : depth < input.config.maxDepth → ∀ c, selectors (depth + 1) c = selectors' (depth + 1) c) :
    colon input tokens selectors fuel depth = colon input tokens selectors' fuel depth := by
  funext s c
  rw [colon, colon, relative_congr h]

theorem pass_congr (h : depth < input.config.maxDepth → ∀ c, selectors (depth + 1) c = selectors' (depth + 1) c) :
    pass input tokens selectors fuel depth = pass input tokens selectors' fuel depth := by
  funext t s c
  unfold pass readRegular
  rw [colon_congr h]

end

/-- By induction on the fuel, there is always room for the calls that the limit leaves. -/
theorem loopWithin_eq {levels : Nat} (h : input.config.maxDepth ≤ depth + levels) :
    loopWithin input tokens levels fuel depth s c = loop input tokens fuel depth s c := by
  induction fuel generalizing levels depth s c with
  | zero => rfl
  | succ fuel ih =>
    rw [loopWithin, loop]
    refine congrArg _ (funext fun _ => ?_)
    cases tokens[c.position]? with
    | none => rfl
    | some t =>
      have hpass : pass input tokens (fun depth c => do
            holds (0 < levels)
            loopWithin input tokens (levels - 1) fuel depth {} c) fuel depth =
          pass input tokens (fun depth c => loop input tokens fuel depth {} c) fuel depth := by
        refine pass_congr fun hlimit c => ?_
        have hroom : 0 < levels := by omega
        rw [holds, if_pos hroom, pure_bind]
        exact ih (by omega)
      dsimp only
      rw [hpass]
      refine congrArg _ (funext fun next => ?_)
      cases next with
      | returns list c' => rfl
      | repeats s' c' => exact ih h

/-! ### The run -/

theorem exists_returned {α : Type} {r : Outcome α} (h : r.run.any Except.toBool = true) : ∃ a, r = pure a := by
  rcases r with _ | fault | a
  · cases h
  · cases h
  · exact ⟨a, rfl⟩

/-- How a pass of the loop reads the lists of arguments. -/
abbrev arguments (input : Input) (tokens : List Token) (fuel : Nat) : Nat → Cursor → Outcome (SelectorList × Cursor) :=
  fun depth c => loop input tokens fuel depth {} c

theorem reads_arguments : ReadsArguments tokens fuel (arguments input tokens fuel) := fun depth _ =>
  loop_ends.imp (fun h => ⟨h, by simp⟩) fun _ h => ⟨h.names, h.ended (Nat.succ_pos depth)⟩

theorem ready_start (hfuel : tokens.length < fuel) : Ready tokens fuel 0 {} := ⟨Nat.zero_le _, rfl, hfuel⟩

/-- What the outermost call gives for the tokens of a text is what compiling the text gives. -/
theorem compile_of_loop {text : Text} {outermost : Except Fault (SelectorList × Cursor)}
    (hselector : input.selector = Text.trimSpace text) (hne : input.selector ≠ [])
    (hfuel : (Token.scan input.selector).length < fuel)
    (h : loop input (Token.scan input.selector) fuel 0 .start {} = total outermost) :
    SelectorList.compile input.config text = outermost.map Prod.fst := by
  obtain ⟨selector, config⟩ := input
  subst hselector
  have hcompile : SelectorList.compile config text =
      onwards ⟨Text.trimSpace text, config⟩ (Token.scan (Text.trimSpace text)) .start 0 := by
    rw [SelectorList.compile, if_neg (by simpa using hne)]
    rfl
  rw [hcompile]
  have hleads : Follows ⟨Text.trimSpace text, config⟩ _ [] {} _ _ :=
    loop_leads (Token.scanned_scan _).proper inside_start hfuel
  cases hleads with
  | fails result failed =>
    cases h.symm.trans result
    exact failed
  | goesOn result _ rest =>
    cases h.symm.trans result
    exact rest

/-- Whatever the tokens are, a pass of the loop and a call that reads a pseudo-class return with the cursor further on
and not behind the end of the tokens, and a call for an argument returns right after the parenthesis that ends it. The
outermost call ends, with room for no more nested calls than the limit; it returns with all tokens read, and for the
tokens of a text it gives what compiling the text gives. -/
theorem calls_advance (input : Input) (tokens : List Token) :
    (∀ fuel depth s c t next, tokens[c.position]? = some t →
      pass input tokens (arguments input tokens fuel) fuel depth t s c = pure next → Advances tokens c next.cursor) ∧
    (∀ fuel depth s c result, c.position < tokens.length →
      colon input tokens (arguments input tokens fuel) fuel depth s c = pure result → Advances tokens c result.2) ∧
    (∀ fuel depth name s c result,
      relative input (arguments input tokens fuel) depth name s c = pure result → Advances tokens c result.2) ∧
    (∀ fuel depth name s c result,
      absolute input tokens fuel depth name s c = pure result → Advances tokens c result.2) ∧
    (∀ fuel depth s c result,
      loop input tokens fuel (depth + 1) s c = pure result → Ended tokens c.position result.2) ∧
    ∀ fuel, tokens.length < fuel → ∃ outermost : Except Fault (SelectorList × Cursor),
      loop input tokens fuel 0 .start {} = total outermost ∧
      loopWithin input tokens input.config.maxDepth fuel 0 .start {} = total outermost ∧
      (∀ list c, outermost = .ok (list, c) → c.position = tokens.length) ∧
      ∀ text, input.selector = Text.trimSpace text → input.selector ≠ [] → tokens = Token.scan input.selector →
        SelectorList.compile input.config text = outermost.map Prod.fst := by
  refine ⟨fun fuel depth s c t next ht h => ?_, fun fuel depth s c result hlt h => ?_,
    fun fuel depth name s c result h => ?_, fun fuel depth name s c result h => ?_,
    fun fuel depth s c result h => ?_, fun fuel hfuel => ?_⟩
  · exact ((pass_ends reads_arguments ht).returns next h).advances
  · exact ((colon_ends reads_arguments hlt).returns result h).advances
  · exact ((relative_ends reads_arguments).returns result h).advances
  · exact (absolute_ends.returns result h).advances
  · exact (loop_ends.returns result h).ended (Nat.succ_pos depth)
  · have hends : Ends _ (loop input tokens fuel 0 .start {}) fun r => Finishes tokens 0 {} r.2 := loop_ends
    obtain ⟨outermost, h⟩ := hends.present ⟨ready_start hfuel, by simp [State.start]⟩
    refine ⟨outermost, h, ?_, fun list c houtermost => ?_, fun text hselector hne htokens => ?_⟩
    · rw [loopWithin_eq (Nat.le_add_left _ _), h]
    · subst houtermost
      exact (hends.returns (list, c) h).all rfl
    · subst htokens
      exact compile_of_loop hselector hne hfuel h

/-- The calls for `a:has(b:contains(c))`: the colons stand at 1 and 5, and the arguments begin at 4 and 8. -/
theorem calls_advance_nested :
    let input : Input := ⟨"a:has(b:contains(c))".toList, Config.standard⟩
    let tokens := Token.scan input.selector
    (∃ t next, tokens[1]? = some t ∧
      pass input tokens (arguments input tokens 12) 12 0 t .start ⟨1, []⟩ = pure next ∧
        Advances tokens ⟨1, []⟩ next.cursor) ∧
    (∃ result, colon input tokens (arguments input tokens 12) 12 0 .start ⟨1, []⟩ = pure result ∧
      Advances tokens ⟨1, []⟩ result.2) ∧
    (∃ result, relative input (arguments input tokens 12) 0 "has".toList .start ⟨4, []⟩ = pure result ∧
      Advances tokens ⟨4, []⟩ result.2) ∧
    (∃ result, absolute input tokens 12 1 "contains".toList {} ⟨8, ["has".toList]⟩ = pure result ∧
      Advances tokens ⟨8, ["has".toList]⟩ result.2) ∧
    (∃ result, loop input tokens 12 1 {} ⟨4, ["has".toList]⟩ = pure result ∧ Ended tokens 4 result.2) ∧
    ∃ outermost : Except Fault (SelectorList × Cursor),
      loopWithin input tokens 32 12 0 .start {} = total outermost ∧
      (∀ list c, outermost = .ok (list, c) → c.position = 11) ∧
      SelectorList.compile Config.standard input.selector = outermost.map Prod.fst := by
  intro input tokens
  obtain ⟨hpass, hcolon, hrelative, habsolute, hloop, hrun⟩ := calls_advance input tokens
  refine ⟨?_, ?_, ?_, ?_, ?_, ?_⟩
  · have ht : tokens[1]? = some ⟨.mark, [Mark.colon], 1⟩ := by decide +kernel
    obtain ⟨next, h⟩ := exists_returned
      (r := pass input tokens (arguments input tokens 12) 12 0 ⟨.mark, [Mark.colon], 1⟩ .start ⟨1, []⟩)
      (by decide +kernel)
    exact ⟨_, next, ht, h, hpass _ _ _ _ _ _ ht h⟩
  · obtain ⟨result, h⟩ := exists_returned (r := colon input tokens (arguments input tokens 12) 12 0 .start ⟨1, []⟩)
      (by decide +kernel)
    exact ⟨result, h, hcolon _ _ _ _ _ (by decide +kernel) h⟩
  · obtain ⟨result, h⟩ := exists_returned
      (r := relative input (arguments input tokens 12) 0 "has".toList .start ⟨4, []⟩) (by decide +kernel)
    exact ⟨result, h, hrelative _ _ _ _ _ _ h⟩
  · obtain ⟨result, h⟩ := exists_returned (r := absolute input tokens 12 1 "contains".toList {} ⟨8, ["has".toList]⟩)
      (by decide +kernel)
    exact ⟨result, h, habsolute _ _ _ _ _ _ h⟩
  · obtain ⟨result, h⟩ := exists_returned (r := loop input tokens 12 1 {} ⟨4, ["has".toList]⟩) (by decide +kernel)
    exact ⟨result, h, hloop _ _ _ _ _ h⟩
  · obtain ⟨outermost, -, hwithin, hall, hcompile⟩ := hrun 12 (by decide +kernel)
    have hlength : tokens.length = 11 := by decide +kernel
    rw [hlength] at hall
    exact ⟨outermost, hwithin, hall, hcompile _ (by decide +kernel) (by decide +kernel) rfl⟩

end Selector.Descent

end CosmeticFilter
