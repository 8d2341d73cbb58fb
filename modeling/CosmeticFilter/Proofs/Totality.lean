import CosmeticFilter.Proofs.Descent
import CosmeticFilter.Proofs.Independence

/-!
# The descent finds what it asks for

`SelectorList.descend_total` says that compiling by recursive descent gives what `SelectorList.parse` gives, for
every text, so that no access goes wrong and no loop runs out of fuel, and that whatever it fails with concerns the
text, the policy or the shape of the tree.

What the descent keeps in its calls the machine keeps on a stack of its own. While the descent is inside the
arguments that interrupt the lists `suspended`, at the depth `suspended.length`, the machine is in a state
`within suspended s`. A call is compared with all that the machine does from there to the end of the input: by
`Leads`, the call fails as the machine does, or the machine goes on from the result of the call. `collect_leads`,
`absolute_leads`, `relative_leads`, `colon_leads` and `pass_leads` say so of one kind of call each, and `loop_leads`
of the loop, by induction on the fuel. The invariant is `Inside`: the names on the stack are those of the suspended
lists, and the cursor is not behind the end of the tokens. A call that returns leaves the stack as it was
(`Returned`).
-/

namespace CosmeticFilter

open Outcome

/-! ### Following a computation -/

/-- The computation asks for nothing that is missing. It fails as `whole` does, or `whole` goes on from its result. -/
inductive Leads {α β : Type} (r : Outcome α) (whole : Except Fault β) (P : α → Prop) (next : α → Except Fault β) : Prop
  | fails {fault : Fault} (result : r = fail fault) (failed : whole = .error fault) : Leads r whole P next
  | goesOn {a : α} (result : r = pure a) (holds : P a) (rest : whole = next a) : Leads r whole P next

namespace Leads

variable {α β γ : Type} {r : Outcome α} {whole : Except Fault β} {P : α → Prop} {next : α → Except Fault β}

theorem pure {a : α} (hP : P a) (h : whole = next a) : Leads (Pure.pure a) whole P next := .goesOn rfl hP h

theorem fail {fault : Fault} (h : whole = .error fault) : Leads (Outcome.fail fault) whole P next := .fails rfl h

theorem bind {f : α → Outcome γ} {Q : γ → Prop} {last : γ → Except Fault β} (h : Leads r whole P next)
    (hf : ∀ a, P a → Leads (f a) (next a) Q last) : Leads (r >>= f) whole Q last := by
  cases h with
  | fails result failed =>
    subst result
    exact .fails rfl failed
  | goesOn result holds rest =>
    subst result
    rw [rest]
    exact hf _ holds

theorem total_bind {x : Except Fault γ} {f : γ → Outcome α} {more : γ → Except Fault β}
    (hf : ∀ a, x = .ok a → Leads (f a) (more a) P next) : Leads (total x >>= f) (x.bind more) P next := by
  cases x with
  | error fault => exact .fails rfl rfl
  | ok a => exact hf a rfl

/-- Both computations start with the same check. -/
theorem check_bind {δ : Type} {x : Except Fault γ} {f : γ → Outcome α} {g : γ → Except Fault δ}
    {more : δ → Except Fault β} (hf : ∀ a, Leads (f a) ((g a).bind more) P next) :
    Leads (total x >>= f) ((x.bind g).bind more) P next := by
  cases x with
  | error fault => exact .fails rfl rfl
  | ok a => exact hf a

/-- What is done with the result of the computation is done with what `whole` gives. -/
theorem bind_eq {f : α → Outcome γ} {g : β → Except Fault γ} (h : Leads r whole P next)
    (hf : ∀ a, P a → f a = total ((next a).bind g)) : r >>= f = total (whole.bind g) := by
  cases h with
  | fails result failed =>
    subst result
    rw [failed]
    rfl
  | goesOn result holds rest =>
    subst result
    rw [rest]
    exact hf _ holds

theorem imp {Q : α → Prop} (h : Leads r whole P next) (hPQ : ∀ a, P a → Q a) : Leads r whole Q next := by
  cases h with
  | fails result failed => exact .fails result failed
  | goesOn result holds rest => exact .goesOn result (hPQ _ holds) rest

theorem found_bind {x : Option γ} {a : γ} {f : γ → Outcome α} (hx : x = some a) (h : Leads (f a) whole P next) :
    Leads (found x >>= f) whole P next := by
  subst hx
  exact h

theorem holds_bind {p : Prop} [Decidable p] {f : Unit → Outcome α} (hp : p) (h : Leads (f ()) whole P next) :
    Leads (holds p >>= f) whole P next := by
  rw [holds, if_pos hp]
  exact h

end Leads

/-! ### Attributes close by index -/

/-- After an element of the class that is not the last one, the next one is there. -/
theorem dropWhile_of_findIdx? {α : Type} {p : α → Bool} {l : List α} {last : α} {i : Nat}
    (hlast : l.getLast? = some last) (hp : p last = false) (h : l.findIdx? p = some i) :
    ∃ a b more, l[i + 1]? = some b ∧ l.dropWhile (fun x => !p x) = a :: b :: more := by
  obtain ⟨hi, hindex⟩ := List.findIdx?_eq_some_iff_findIdx_eq.1 h
  obtain ⟨_, hfound, -⟩ := List.findIdx?_eq_some_iff_getElem.1 h
  have hnext : i + 1 < l.length := by
    by_contra hend
    rw [List.getLast?_eq_getElem?, show l.length - 1 = i by omega, List.getElem?_eq_getElem hi] at hlast
    cases hlast
    rw [hfound] at hp
    cases hp
  refine ⟨l[i], l[i + 1], l.drop (i + 1 + 1), List.getElem?_eq_getElem hnext, ?_⟩
  rw [List.dropWhile_eq_drop_findIdx_not]
  simp only [Bool.not_not]
  rw [hindex, List.drop_eq_getElem_cons hi, List.drop_eq_getElem_cons hnext]

namespace Selector.Descent

theorem endsValue_eq (body : Text) (opening last : Token) (beforeLast : Option Token) :
    endsValue body opening (some last) beforeLast = total (Attribute.endsValue body opening last beforeLast) := by
  rw [endsValue, Attribute.endsValue]
  split
  · show (if _ then _ else _) = _
    split <;> rfl
  · show (if last.isWord then _ else _) = _
    split <;> rfl

theorem closes_eq (body : Text) : closes body = total (Attribute.closes body) := by
  rw [closes, Attribute.closes]
  cases hlast : (Token.scanAttribute body).getLast? with
  | none =>
    rw [List.getLast?_eq_none_iff.1 hlast]
    rfl
  | some last =>
    obtain ⟨first, hfirst⟩ : ∃ first, (Token.scanAttribute body).head? = some first := by
      cases htokens : Token.scanAttribute body with
      | nil =>
        rw [htokens] at hlast
        cases hlast
      | cons first rest => exact ⟨first, rfl⟩
    rw [hfirst]
    cases hstart : first.isMark && !first.spells Mark.backslash with
    | true =>
      simp only [Option.filter, hstart]
      rfl
    | false =>
      cases hequal : last.spells Mark.equalSign with
      | true =>
        simp only [Option.filter, hstart, Option.any, hequal]
        rfl
      | false =>
        simp only [Option.filter, hstart, Option.any, hequal]
        have hnot : Attribute.isEqualSign last = false := by rw [Attribute.isEqualSign, hequal, Bool.and_false]
        cases hindex : (Token.scanAttribute body).findIdx? Attribute.isEqualSign with
        | none =>
          have hdrop : (Token.scanAttribute body).dropWhile (fun t => !Attribute.isEqualSign t) = [] := by
            rw [List.dropWhile_eq_nil_iff]
            intro t ht
            rw [List.findIdx?_eq_none_iff.1 hindex t ht]
            rfl
          rw [hdrop, Bool.and_comm]
          rfl
        | some i =>
          obtain ⟨equal, opening, more, hopening, hdrop⟩ := dropWhile_of_findIdx? hlast hnot hindex
          rw [hdrop]
          simp only [hopening]
          exact endsValue_eq body opening last _

/-! ### The machine that goes on -/

variable {input : Input} {tokens : List Token} {s : State} {t : Token} {position fuel : Nat} {c : Cursor}
  {suspended : List Suspended}

/-- The state inside the arguments that interrupt the lists `outer`. -/
def within (outer : List Suspended) (s : State) : State := { s with outer }

theorem rebases_within (outer : List Suspended) : State.Rebases (within outer) :=
  ⟨fun _ => rfl, fun _ => rfl, fun _ _ => rfl, fun _ _ => rfl⟩

/-- What the machine gives from the state `s` on, with the token at `position` next. -/
def onwards (input : Input) (tokens : List Token) (s : State) (position : Nat) : Except Fault SelectorList :=
  (s.run input 0 (tokens.drop position)).bind (State.finish input)

theorem onwards_step (h : tokens[position]? = some t) : onwards input tokens s position =
    (s.step input t (tokens.drop (position + 1))).bind fun next =>
      onwards input tokens next.state (position + 1 + next.skip) := by
  obtain ⟨hlt, rfl⟩ := List.getElem?_eq_some_iff.1 h
  rw [onwards, List.drop_eq_getElem_cons hlt, State.run_cons]
  cases s.step input tokens[position] (tokens.drop (position + 1)) with
  | error fault => rfl
  | ok next =>
    show (next.state.run input next.skip (tokens.drop (position + 1))).bind _ = onwards input tokens _ _
    rw [State.run_eq_drop, List.drop_drop]
    rfl

theorem onwards_argument {a : Argument} {outer : List Suspended} (h : tokens[position]? = some t) :
    onwards input tokens (within outer { s with mode := .argument a }) position =
      ((within outer { s with mode := .argument a }).readArgument input a t).bind fun s =>
        onwards input tokens s (position + 1) := by
  rw [onwards_step h]
  exact map_bind _ _ _

theorem onwards_end (h : tokens[position]? = none) : onwards input tokens s position = s.finish input := by
  rw [onwards, List.drop_eq_nil_of_le (List.getElem?_eq_none_iff.1 h)]
  rfl

/-! ### The token before the cursor -/

/-- The text of the token before `position`, if there is one. -/
def textBefore (tokens : List Token) (position : Nat) : Option Text :=
  (tokens.take position).getLast?.map Token.text

theorem textBefore_succ (h : tokens[position]? = some t) : textBefore tokens (position + 1) = some t.text := by
  rw [textBefore, List.take_add_one, h]
  simp

theorem previous_eq (h : c.position ≤ tokens.length) : c.previous tokens = pure (textBefore tokens c.position) := by
  rw [Cursor.previous]
  split
  · next hpos =>
    have hlt : c.position - 1 < tokens.length := by omega
    have hbefore := textBefore_succ (List.getElem?_eq_getElem hlt)
    rw [Nat.sub_add_cancel hpos] at hbefore
    rw [hbefore, List.getElem?_eq_getElem hlt]
    rfl
  · next hpos =>
    rw [textBefore, show c.position = 0 by omega]
    rfl

/-- A bracket that comes next is escaped by the token before it if and only if it is by the plain text. -/
def Aligned (tokens : List Token) (s : State) (position : Nat) : Prop :=
  s.mode = .regular → ∀ t, tokens[position]? = some t → t.text = [Mark.squareLeft] →
    (textBefore tokens position = some [Mark.backslash] ↔ s.frame.buffer.getLast? = some Mark.backslash)

namespace Aligned

/-- A token that is written is the end of the plain text. -/
theorem write {state : State} (h : tokens[position]? = some t) (ht : t.Proper)
    (hbuffer : state.frame.buffer = s.frame.buffer ++ t.text) : Aligned tokens state (position + 1) := by
  intro _ _ _ _
  rw [textBefore_succ h, hbuffer, List.getLast?_append_of_ne_nil _ ht.text_ne_nil, Option.some.injEq]
  constructor
  · intro htext
    rw [htext]
    rfl
  · exact fun hlast => ht.text_of_mem (List.mem_of_getLast? hlast) (by decide)

theorem of_ne {d : Char} (h : textBefore tokens position = some [d]) (hd : d ≠ Mark.backslash)
    (hbuffer : s.frame.buffer.getLast? ≠ some Mark.backslash) : Aligned tokens s position := by
  intro _ _ _ _
  rw [h]
  simpa [hd] using hbuffer

/-- Nothing is written after a mark. -/
theorem of_nil {d : Char} (h : textBefore tokens position = some [d]) (hd : d ≠ Mark.backslash)
    (hbuffer : s.frame.buffer = []) : Aligned tokens s position :=
  of_ne h hd (by simp [hbuffer])

theorem opens_eq (h : Aligned tokens s position) (hmode : s.mode = .regular) (ht : tokens[position]? = some t) :
    Attribute.opens t.text (textBefore tokens position) =
      Attribute.opens t.text (s.frame.buffer.getLast?.map fun c => [c]) := by
  unfold Attribute.opens
  by_cases hsquare : t.text = [Mark.squareLeft]
  · have hiff := h hmode t ht hsquare
    have hlast : s.frame.buffer.getLast?.map (fun c => [c]) = some [Mark.backslash] ↔
        s.frame.buffer.getLast? = some Mark.backslash := by
      cases s.frame.buffer.getLast? <;> simp
    simp [hiff, hlast]
  · simp [hsquare]

end Aligned

/-! ### What calls keep -/

/-- The calls are inside the arguments that interrupt the lists `outer`, and the state is that of the innermost. -/
structure Inside (tokens : List Token) (outer : List Suspended) (s : State) (c : Cursor) : Prop where
  names : c.openNames = outer.map Suspended.name
  bound : c.position ≤ tokens.length
  mode : ∀ a, s.mode ≠ .argument a
  aligned : Aligned tokens s c.position

theorem inside_start : Inside tokens [] .start {} :=
  ⟨rfl, Nat.zero_le _, by simp [State.start], fun _ _ _ _ => by simp [textBefore, State.start, State.frame]⟩

/-- The cursor stands after a parenthesis that ends an argument. -/
structure Ended (tokens : List Token) (position : Nat) (c : Cursor) : Prop where
  lt : position < c.position
  bound : c.position ≤ tokens.length
  paren : textBefore tokens c.position = some [Mark.parenRight]

theorem Ended.of_next {position' : Nat} {c : Cursor} (h : Ended tokens position' c) (hle : position ≤ position') :
    Ended tokens position c :=
  ⟨Nat.lt_of_le_of_lt hle h.lt, h.bound, h.paren⟩

/-- The call that started at the cursor `c` leaves a state from which the machine goes on, or fails as it does. -/
abbrev Resumes (input : Input) (tokens : List Token) (suspended : List Suspended) (c : Cursor)
    (call : Outcome (State × Cursor)) (whole : Except Fault SelectorList) : Prop :=
  Leads call whole (fun result => Inside tokens suspended result.1 result.2 ∧ c.position < result.2.position)
    (fun result => onwards input tokens (within suspended result.1) result.2.position)

/-! ### Arguments of absolute pseudo-classes -/

theorem pop_eq {names : List Text} {name : Text} (h : c.openNames = name :: names) :
    c.pop = pure { c with openNames := names } := by
  rw [Cursor.pop, h]
  rfl

/-- The call that started at the cursor `c` collects the argument of the pseudo-class `name` that the machine reads
there, or fails as it does. -/
abbrev Collects (input : Input) (tokens : List Token) (suspended : List Suspended) (s : State) (name : Text)
    (c : Cursor) (call : Outcome (Text × Cursor)) (whole : Except Fault SelectorList) : Prop :=
  Leads call whole (fun result => result.2.openNames = c.openNames ∧ Ended tokens c.position result.2)
    (fun result => ((within suspended s).closeArgument input { name, text := result.1 }).bind fun s =>
      onwards input tokens s result.2.position)

/-- By induction on the fuel, the call reads up to the parenthesis that ends the argument. -/
theorem collect_leads {a : Argument} {name : Text} (hname : a.name = name)
    (hnames : c.openNames = name :: suspended.map Suspended.name) (hbound : c.position ≤ tokens.length)
    (hfuel : tokens.length - c.position < fuel) :
    Collects input tokens suspended s name c (collect input tokens suspended.length fuel a c)
      (onwards input tokens (within suspended { s with mode := .argument a }) c.position) := by
  induction fuel generalizing a c with
  | zero => omega
  | succ fuel ih =>
    rw [collect]
    refine .holds_bind ⟨hbound, by simp [hnames]⟩ ?_
    cases ht : tokens[c.position]? with
    | none =>
      rw [onwards_end ht]
      show Collects input tokens suspended s name c (if a.inRegexp then _ else _) (if a.inRegexp then _ else _)
      split
      · exact .fail rfl
      · exact .fail rfl
    | some t =>
      have hlt : c.position < tokens.length := (List.getElem?_eq_some_iff.1 ht).1
      -- Whatever becomes of the parentheses and of the regular expression, the token is kept and the call goes on.
      have keep : ∀ a' : Argument, a'.name = name →
          Collects input tokens suspended s name c
            (collect input tokens suspended.length fuel { a' with text := a'.text ++ t.text } (c.advance 1))
            (onwards input tokens (within suspended { s with mode := .argument { a' with text := a'.text ++ t.text } })
              (c.position + 1)) := by
        intro a' ha'
        have hless : tokens.length - (c.position + 1) < fuel := by omega
        have hnext := ih (a := { a' with text := a'.text ++ t.text }) (c := c.advance 1) ha' hnames hlt hless
        exact hnext.imp fun result h => ⟨h.1, h.2.of_next (Nat.le_succ _)⟩
      rw [onwards_argument ht]
      unfold State.readArgument
      dsimp only
      split
      · exact keep { a with inRegexp := !(t.spells Mark.slash && Regexp.closes a.text) } hname
      · split
        · refine .holds_bind (by simp [hnames]) ?_
          have hopens : Regexp.opens c.openNames a.text = Regexp.opensIn a.name a.text := by
            rw [hnames, hname]
            rfl
          rw [hopens]
          cases Regexp.opensIn a.name a.text with
          | error fault => exact .fail rfl
          | ok opened => exact keep { a with inRegexp := opened } hname
        · split
          · exact keep { a with parenDepth := a.parenDepth + 1 } hname
          · split
            · next hparen =>
              cases a.parenDepth with
              | zero =>
                have hclosed := textBefore_succ ht
                rw [Token.spells_iff.1 hparen] at hclosed
                subst hname
                exact .pure ⟨rfl, Nat.lt_succ_self _, hlt, hclosed⟩ rfl
              | succ parenDepth => exact keep { a with parenDepth } hname
            · exact keep a hname

theorem checkRemove_eq (hnames : c.openNames = suspended.map Suspended.name) :
    checkRemove input suspended.length s c = total ((within suspended s).checkRemove input) := by
  cases suspended with
  | nil =>
    show (if (Text.trimSpace s.frame.buffer).isEmpty && s.frame.parts.isEmpty then _ else _) =
      total (if (Text.trimSpace s.frame.buffer).isEmpty && s.frame.parts.isEmpty then _ else _)
    split <;> rfl
  | cons enclosing suspended =>
    have hdepth : 0 < (enclosing :: suspended).length := Nat.succ_pos _
    rw [checkRemove, if_pos hdepth, Cursor.innermost, hnames]
    rfl

/-- Opening the argument is the check, and then the machine is inside the argument. -/
theorem openAbsolute_bind {β : Type} (name : Text) (next : State → Except Fault β) :
    ((within suspended s).openAbsolute input name).bind next =
      (if name = PseudoClass.removeName then (within suspended s).checkRemove input else .ok ()).bind fun _ =>
        next (within suspended { s.withFrame (s.frame.anchor name) with mode := .argument { name } }) := by
  rw [State.openAbsolute]
  by_cases hname : name = PseudoClass.removeName
  · rw [if_pos hname, if_pos hname]
    cases (within suspended s).checkRemove input <;> rfl
  · rw [if_neg hname, if_neg hname]
    rfl

theorem absolute_leads {name : Text} (hnames : c.openNames = suspended.map Suspended.name)
    (hbound : c.position ≤ tokens.length) (hfuel : tokens.length - c.position < fuel) :
    Resumes input tokens suspended c (absolute input tokens fuel suspended.length name s c)
      (((within suspended s).openAbsolute input name).bind fun s => onwards input tokens s c.position) := by
  have hcheck : (if name = PseudoClass.removeName then checkRemove input suspended.length s c else pure ()) =
      total (if name = PseudoClass.removeName then (within suspended s).checkRemove input else .ok ()) := by
    rw [checkRemove_eq hnames]
    split <;> rfl
  rw [absolute, openAbsolute_bind, hcheck]
  refine .total_bind fun _ _ => ?_
  have hpush : (c.push name).openNames = name :: suspended.map Suspended.name := congrArg (name :: ·) hnames
  have hcollect : Collects input tokens suspended (s.withFrame (s.frame.anchor name)) name (c.push name)
      (collect input tokens suspended.length fuel { name } (c.push name))
      (onwards input tokens (within suspended { s.withFrame (s.frame.anchor name) with mode := .argument { name } })
        c.position) :=
    collect_leads rfl hpush hbound hfuel
  refine hcollect.bind ?_
  rintro ⟨text, c'⟩ ⟨hrestored, hended⟩
  refine .holds_bind hrestored ?_
  rw [pop_eq hrestored, pure_bind, (rebases_within suspended).closeArgument, map_bind]
  refine .total_bind fun s' hs' => ?_
  obtain ⟨-, rfl⟩ := State.closeArgument_eq_ok_iff.1 hs'
  refine .pure ⟨⟨hnames, hended.bound, by simp, ?_⟩, hended.lt⟩ rfl
  exact .of_nil hended.paren (by decide) (by simp)

/-! ### Arguments of relative pseudo-classes -/

/-- What the machine gives after the list at `position` inside the arguments that interrupt the lists `outer`. -/
def afterList (input : Input) (tokens : List Token) (list : SelectorList) (position : Nat) :
    (outer : List Suspended) → Except Fault SelectorList
  | [] => .ok list
  | e :: outer =>
    let level := { e.level with frame := e.level.frame.push (.relative e.name list) }
    onwards input tokens { level, outer } position

/-- The call that started at the cursor `c` has returned with the cursor `c'`. -/
structure Returned (tokens : List Token) (outer : List Suspended) (c c' : Cursor) : Prop where
  names : c'.openNames = c.openNames
  bound : c'.position ≤ tokens.length
  ended : outer ≠ [] → Ended tokens c.position c'

/-- The call that started at the cursor `c` returns the list that the machine reads there, or fails as it does. -/
abbrev Follows (input : Input) (tokens : List Token) (outer : List Suspended) (c : Cursor)
    (call : Outcome (SelectorList × Cursor)) (whole : Except Fault SelectorList) : Prop :=
  Leads call whole (fun result => Returned tokens outer c result.2)
    (fun result => afterList input tokens result.1 result.2.position outer)

/-- `selectors` reads lists as the machine does, from `position` on. -/
def Reads (input : Input) (tokens : List Token) (position : Nat)
    (selectors : Nat → Cursor → Outcome (SelectorList × Cursor)) : Prop :=
  ∀ (outer : List Suspended) (c : Cursor), Inside tokens outer {} c → position < c.position →
    Follows input tokens outer c (selectors outer.length c) (onwards input tokens (within outer {}) c.position)

theorem relative_leads {selectors : Nat → Cursor → Outcome (SelectorList × Cursor)} {name : Text}
    (hread : Reads input tokens position selectors) (hnames : c.openNames = suspended.map Suspended.name)
    (hbound : c.position ≤ tokens.length) (hmode : s.mode = .regular) (hposition : position < c.position)
    (hparen : textBefore tokens c.position = some [Mark.parenLeft]) :
    Resumes input tokens suspended c (relative input selectors suspended.length name s c)
      (((within suspended s).openRelative input name).bind fun s => onwards input tokens s c.position) := by
  have hdepth : (within suspended s).depth = suspended.length := rfl
  rw [relative, State.openRelative, hdepth]
  split
  · exact .fail rfl
  · let e : Suspended := ⟨name, { s.level with frame := s.frame.anchor name }⟩
    have hinside : Inside tokens (e :: suspended) {} (c.push name) :=
      ⟨congrArg (name :: ·) hnames, hbound, by simp, .of_nil hparen (by decide) rfl⟩
    have hlist := hread (e :: suspended) (c.push name) hinside hposition
    have hopened : ({ within suspended s with level := {}, outer := e :: suspended } : State) =
        within (e :: suspended) {} := by
      rw [within, within, hmode]
    show Resumes input tokens suspended c _
      (onwards input tokens { within suspended s with level := {}, outer := e :: suspended } c.position)
    rw [hopened]
    refine hlist.bind ?_
    rintro ⟨list, c'⟩ hreturned
    have hrestored : c'.openNames = name :: c.openNames := hreturned.names
    have hended : Ended tokens c.position c' := hreturned.ended (List.cons_ne_nil _ _)
    refine .holds_bind hrestored ?_
    rw [pop_eq hrestored, pure_bind]
    refine .pure ⟨⟨hnames, hended.bound, fun a ha => ?_, ?_⟩, hended.lt⟩ ?_
    · cases hmode.symm.trans ha
    · exact .of_nil hended.paren (by decide) (by simp)
    · have hwithin : within suspended (s.withFrame ((s.frame.anchor name).push (.relative name list))) =
          { level := { e.level with frame := e.level.frame.push (.relative e.name list) }, outer := suspended } := by
        rw [within, State.mode_withFrame, hmode]
        rfl
      rw [hwithin]
      rfl

/-! ### Colons -/

/-- The parenthesis that opens an argument stands two tokens after the colon. -/
theorem openedBy (h : State.opensArgument (tokens.drop (position + 1)) = true) :
    position + 3 ≤ tokens.length ∧ textBefore tokens (position + 3) = some [Mark.parenLeft] := by
  have hparen : ∃ t, (tokens.drop (position + 1))[1]? = some t ∧ t.text = [Mark.parenLeft] := by
    revert h
    unfold State.opensArgument
    split
    · next t _ hdrop => exact fun h => ⟨t, by rw [hdrop]; rfl, Token.spells_iff.1 h⟩
    · exact nofun
  obtain ⟨t, ht, hmark⟩ := hparen
  rw [List.getElem?_drop] at ht
  have hlt := (List.getElem?_eq_some_iff.1 ht).1
  exact ⟨hlt, by rw [textBefore_succ ht, hmark]⟩

theorem skip_bind {β : Type} (x : Except Fault State) (skip : Nat) (more : Step → Except Fault β) :
    (x >>= fun s => pure { state := s, skip }).bind more = x.bind fun s => more { state := s, skip } := by
  cases x <;> rfl

theorem colon_leads {selectors : Nat → Cursor → Outcome (SelectorList × Cursor)}
    (hread : Reads input tokens c.position selectors) (h : Inside tokens suspended s c) (hmode : s.mode = .regular)
    (ht : tokens[c.position]? = some t) (hcolon : t.text = [Mark.colon])
    (hfuel : tokens.length - c.position ≤ fuel) :
    Resumes input tokens suspended c (colon input tokens selectors fuel suspended.length s c)
      (((within suspended s).readColon input (tokens.drop (c.position + 1))).bind fun next =>
        onwards input tokens next.state (c.position + 1 + next.skip)) := by
  -- A colon that is plain text leaves a text that ends in it, and so no backslash before a bracket.
  have hcopy : Resumes input tokens suspended c (pure (s.copyColon (tokens.drop (c.position + 1)), c.advance 1))
      (onwards input tokens ((within suspended s).copyColon (tokens.drop (c.position + 1))) (c.position + 1)) := by
    refine .pure ⟨⟨h.names, (List.getElem?_eq_some_iff.1 ht).1, h.mode, ?_⟩, Nat.lt_succ_self _⟩ rfl
    have hbefore := textBefore_succ ht
    rw [hcolon] at hbefore
    refine .of_ne hbefore (by decide) ?_
    have hne : Mark.colon ≠ Mark.backslash := by decide
    simpa [State.copyColon] using hne
  have hlt' : c.position < tokens.length := (List.getElem?_eq_some_iff.1 ht).1
  have hframe : (within suspended s).frame = s.frame := rfl
  have hopenNames : (within suspended s).openNames = c.openNames := h.names.symm
  rw [colon, State.readColon, hframe, hopenNames]
  cases hnamed : State.extendedName? (tokens.drop (c.position + 1)) with
  | none => exact hcopy
  | some called =>
    obtain ⟨name, kind⟩ := called
    dsimp only
    split
    · exact .check_bind fun _ => hcopy
    · refine .check_bind fun _ => .check_bind fun _ => ?_
      split
      · next hopens =>
        obtain ⟨hbound, hparen⟩ := openedBy hopens
        have hlt : c.position < (c.advance 3).position := Nat.lt_add_of_pos_right (by decide)
        have hless : tokens.length - (c.advance 3).position < fuel :=
          lt_of_lt_of_le (Nat.sub_lt_sub_left hlt' hlt) hfuel
        have resumes : ∀ {call whole}, Resumes input tokens suspended (c.advance 3) call whole →
            Resumes input tokens suspended c call whole :=
          fun hcall => hcall.imp fun result hresult => ⟨hresult.1, hlt.trans hresult.2⟩
        rw [skip_bind]
        cases kind with
        | relative => exact resumes (relative_leads hread h.names hbound hmode hlt hparen)
        | absolute => exact resumes (absolute_leads h.names hbound hless)
      · exact .fail rfl

/-! ### Selector lists -/

theorem finishSelector_eq (hmode : s.mode = .regular) :
    finishSelector input s = total (s.frame.finish input.selector) := by
  rw [finishSelector, hmode]

theorem readAttribute_eq (body : Text) : readAttribute body t s = total (s.readAttribute body t) := by
  have hclosed : (if t.spells Mark.squareRight then closes body else pure false) =
      total (if t.spells Mark.squareRight then Attribute.closes body else .ok false) := by
    rw [closes_eq]
    split <;> rfl
  rw [readAttribute, hclosed, State.readAttribute]
  split
  · cases Attribute.closes body <;> rfl
  · rfl

theorem readPlain_eq (h : Aligned tokens s position) (hmode : s.mode = .regular) (ht : tokens[position]? = some t) :
    readPlain (textBefore tokens position) t s = s.readPlain t := by
  rw [readPlain, State.readPlain, h.opens_eq hmode ht]

theorem endList_leads (h : Inside tokens suspended s c) :
    Follows input tokens suspended c (endList input suspended.length s c) ((within suspended s).finish input) := by
  rw [endList]
  cases suspended with
  | nil =>
    have hdepth : ¬0 < ([] : List Suspended).length := Nat.not_lt_zero 0
    rw [if_neg hdepth]
    rcases hmode : s.mode with _ | body | a
    · rw [finishSelector_eq hmode, State.finish, within, hmode]
      refine .total_bind fun selector _ => ?_
      exact .pure ⟨rfl, h.bound, absurd rfl⟩ rfl
    · rw [finishSelector, State.finish, within, hmode]
      exact .fail rfl
    · exact absurd hmode (h.mode a)
  | cons enclosing outer =>
    have hfinish : (within (enclosing :: outer) s).finish input =
        .error (.malformed (.unclosedArgument enclosing.name input.selector)) := by
      rcases hmode : s.mode with _ | body | a
      · rw [State.finish, within, hmode]
      · rw [State.finish, within, hmode]
      · exact absurd hmode (h.mode a)
    have hdepth : 0 < (enclosing :: outer).length := Nat.succ_pos _
    rw [if_pos hdepth]
    exact .found_bind (congrArg List.head? h.names) (.fail hfinish)

namespace Pass

/-- What the machine gives after the pass. -/
def rest (input : Input) (tokens : List Token) (outer : List Suspended) : Pass → Except Fault SelectorList
  | .returns list c => afterList input tokens list c.position outer
  | .repeats s c => onwards input tokens (within outer s) c.position

/-- What a pass at the cursor `c` keeps; the cursor has moved. -/
def Keeps (tokens : List Token) (outer : List Suspended) (c : Cursor) : Pass → Prop
  | .returns _ c' => c'.openNames = c.openNames ∧ Ended tokens c.position c'
  | .repeats s' c' => Inside tokens outer s' c' ∧ c.position < c'.position

end Pass

theorem Inside.advance {s' : State} (h : Inside tokens suspended s c) (ht : tokens[c.position]? = some t)
    (hmode : ∀ a, s'.mode ≠ .argument a) (haligned : Aligned tokens s' (c.position + 1)) :
    Inside tokens suspended s' (c.advance 1) ∧ c.position < (c.advance 1).position :=
  ⟨⟨h.names, (List.getElem?_eq_some_iff.1 ht).1, hmode, haligned⟩, Nat.lt_succ_self _⟩

/-- White space that is not written stands before a token that is no bracket, or no text stands before it. -/
theorem Aligned.readSpace (ht : tokens[position]? = some t) (htProper : t.Proper)
    (hspace : t.isOf Text.isSpace = true) :
    Aligned tokens (s.readSpace t (tokens.drop (position + 1))) (position + 1) := by
  obtain ⟨d, hd, hblank⟩ := Token.isOf_iff.1 hspace
  have hbefore := textBefore_succ ht
  rw [hd] at hbefore
  have hne : d ≠ Mark.backslash := by
    rintro rfl
    cases hblank
  rcases State.readSpace_cases s t (tokens.drop (position + 1)) with heq | ⟨heq, hempty | hstops⟩
  · rw [heq]
    exact .write ht htProper rfl
  · rw [heq]
    exact .of_nil hbefore hne (Frame.isEmpty_iff.1 hempty).1
  · rw [heq]
    intro _ next hnext hbracket
    rw [List.head?_drop, hnext, State.continuesAfterSpace_of_mark hbracket (by decide)] at hstops
    cases hstops

theorem closeList_leads {enclosing : Suspended} {outer : List Suspended}
    (h : Inside tokens (enclosing :: outer) s c) (hmode : s.mode = .regular) (ht : tokens[c.position]? = some t)
    (hparen : t.text = [Mark.parenRight]) :
    Leads (closeList input s c)
      (((within (enclosing :: outer) s).closeRelative input enclosing outer).bind fun s =>
        onwards input tokens s (c.position + 1))
      (Pass.Keeps tokens (enclosing :: outer) c) (Pass.rest input tokens (enclosing :: outer)) := by
  have hframe : (within (enclosing :: outer) s).frame = s.frame := rfl
  have hlevel : (within (enclosing :: outer) s).level = s.level := rfl
  have hclosed := textBefore_succ ht
  rw [hparen] at hclosed
  rw [closeList, State.closeRelative, hframe, hlevel, finishSelector_eq hmode]
  split
  · exact .found_bind (congrArg List.head? h.names) (.fail rfl)
  · refine .check_bind fun selector => ?_
    refine .pure ⟨rfl, Nat.lt_succ_self _, (List.getElem?_eq_some_iff.1 ht).1, hclosed⟩ ?_
    rw [within, hmode]
    rfl

theorem readRegular_leads {selectors : Nat → Cursor → Outcome (SelectorList × Cursor)}
    (hread : Reads input tokens c.position selectors) (h : Inside tokens suspended s c) (hmode : s.mode = .regular)
    (ht : tokens[c.position]? = some t) (htProper : t.Proper) (hfuel : tokens.length - c.position ≤ fuel) :
    Leads (readRegular input tokens selectors fuel suspended.length t s c)
      (((within suspended s).readRegular input t (tokens.drop (c.position + 1))).bind fun next =>
        onwards input tokens next.state (c.position + 1 + next.skip))
      (Pass.Keeps tokens suspended c) (Pass.rest input tokens suspended) := by
  have hbefore := textBefore_succ ht
  have hframe : (within suspended s).frame = s.frame := rfl
  rw [readRegular, State.readRegular]
  refine .check_bind fun _ => ?_
  split
  · next hcomma =>
    obtain ⟨hdepth, hcomma⟩ := hcomma
    rw [Token.spells_iff.1 hcomma] at hbefore
    rw [State.readEnd?, hframe, if_neg (Nat.not_lt.2 hdepth.le), if_pos hcomma, finishSelector_eq hmode]
    dsimp only
    rw [skip_bind]
    refine .check_bind fun selector => ?_
    exact .pure (h.advance ht h.mode (.of_nil hbefore (by decide) rfl)) rfl
  · next hcomma =>
    split
    · next hparen =>
      obtain ⟨hdepth, hparen, hopen⟩ := hparen
      obtain ⟨enclosing, outer, rfl⟩ := List.exists_cons_of_length_pos hopen
      have hend : (within (enclosing :: outer) s).readEnd? input t =
          some ((within (enclosing :: outer) s).closeRelative input enclosing outer) := by
        have hcomma : ¬t.spells Mark.comma := fun h => hcomma ⟨hdepth, h⟩
        rw [State.readEnd?, hframe, if_neg (Nat.not_lt.2 hdepth.le), if_neg hcomma, if_pos hparen]
        rfl
      rw [hend]
      dsimp only
      rw [skip_bind]
      exact closeList_leads h hmode ht (Token.spells_iff.1 hparen)
    · next hparen =>
      have hend : (within suspended s).readEnd? input t = none := by
        rw [State.readEnd?_eq_none_iff, hframe, ← Token.spells_iff, ← Token.spells_iff]
        constructor
        · intro h
          by_contra hdepth
          exact hcomma ⟨by omega, h⟩
        · intro h
          by_contra hdepth
          push Not at hdepth
          exact hparen ⟨by omega, h, List.length_pos_iff.2 hdepth.2⟩
      rw [hend]
      dsimp only
      split
      · next hcolon =>
        exact (colon_leads hread h hmode ht (Token.spells_iff.1 hcolon) hfuel).bind fun _ hkept => .pure hkept rfl
      · split
        · next hspace =>
          rw [(rebases_within suspended).readSpace]
          refine .pure (h.advance ht ?_ (.readSpace ht htProper hspace)) rfl
          rcases State.readSpace_cases s t (tokens.drop (c.position + 1)) with heq | ⟨heq, -⟩
          · rw [heq]
            exact h.mode
          · rw [heq]
            exact h.mode
        · rw [previous_eq h.bound, pure_bind, readPlain_eq h.aligned hmode ht, (rebases_within suspended).readPlain]
          refine .pure (h.advance ht ?_ (.write ht htProper (State.buffer_readPlain s t))) rfl
          obtain ⟨depth, mode, hkept, heq⟩ := State.readPlain_eq s t
          rw [heq]
          exact fun a ha => h.mode a ((hkept a ha).trans ha)

theorem pass_leads {selectors : Nat → Cursor → Outcome (SelectorList × Cursor)}
    (hread : Reads input tokens c.position selectors) (h : Inside tokens suspended s c)
    (ht : tokens[c.position]? = some t) (htProper : t.Proper) (hfuel : tokens.length - c.position ≤ fuel) :
    Leads (pass input tokens selectors fuel suspended.length t s c)
      (onwards input tokens (within suspended s) c.position) (Pass.Keeps tokens suspended c)
      (Pass.rest input tokens suspended) := by
  have hstate : (within suspended s).mode = s.mode := rfl
  rw [onwards_step ht, pass, State.step, hstate]
  rcases hmode : s.mode with _ | body | a
  · exact readRegular_leads hread h hmode ht htProper hfuel
  · dsimp only
    rw [readAttribute_eq, map_bind, (rebases_within suspended).readAttribute, map_bind]
    refine .total_bind fun s' hs' => ?_
    rcases State.readAttribute_cases hs' with ⟨-, rfl⟩ | ⟨-, -, rfl⟩
    · exact .pure (h.advance ht (by simp) (.write ht htProper rfl)) rfl
    · exact .pure (h.advance ht (by simp) (.write ht htProper rfl)) rfl
  · exact absurd hmode (h.mode a)

/-- By induction on the fuel, each call of the loop reads what the machine reads. -/
theorem loop_leads (hproper : ∀ t ∈ tokens, t.Proper) (h : Inside tokens suspended s c)
    (hfuel : tokens.length - c.position < fuel) :
    Follows input tokens suspended c (loop input tokens fuel suspended.length s c)
      (onwards input tokens (within suspended s) c.position) := by
  induction fuel generalizing suspended s c with
  | zero => omega
  | succ fuel ih =>
    rw [loop]
    refine .holds_bind ⟨h.bound, by rw [h.names, List.length_map]⟩ ?_
    cases ht : tokens[c.position]? with
    | none =>
      rw [onwards_end ht]
      exact endList_leads h
    | some t =>
      have hlt : c.position < tokens.length := (List.getElem?_eq_some_iff.1 ht).1
      -- The list of an argument is read by the same loop, with the fuel that is left.
      have hread : Reads input tokens c.position fun depth c => loop input tokens fuel depth {} c :=
        fun outer c' h' hlt' => ih h' (by omega)
      refine (pass_leads hread h ht (hproper t (List.mem_of_getElem? ht)) (by omega)).bind fun next hnext => ?_
      cases next with
      | returns list c' =>
        obtain ⟨hnames, hended⟩ := hnext
        exact .pure ⟨hnames, hended.bound, fun _ => hended⟩ rfl
      | repeats s' c' =>
        obtain ⟨h', hlt'⟩ := hnext
        refine (ih h' (by omega)).imp fun result hreturned => ?_
        refine ⟨hreturned.names.trans (h'.names.trans h.names.symm), hreturned.bound, fun hne => ?_⟩
        exact (hreturned.ended hne).of_next hlt'.le

end Selector.Descent

namespace SelectorList

open Selector

theorem descend_eq (config : Config) (text : Text) : descend config text = total (parse config text) := by
  have hempty : (Token.scan (Text.trimSpace text)).isEmpty = (Text.trimSpace text).isEmpty := by
    rw [Bool.eq_iff_iff, List.isEmpty_iff, List.isEmpty_iff]
    exact Token.scanFrom_eq_nil_iff 0
  rw [descend, parse, compile]
  dsimp only
  rw [hempty]
  split
  · rfl
  · refine (Descent.loop_leads (Token.scanned_scan _).proper Descent.inside_start (Nat.lt_succ_self _)).bind_eq ?_
    rintro ⟨list, c⟩ hreturned
    have hends : c.position ≤ (Token.scan (Text.trimSpace text)).length ∧ c.openNames = [] :=
      ⟨hreturned.bound, hreturned.names⟩
    dsimp only
    rw [holds, if_pos hends, pure_bind]
    show (total (Node.validate (some list.toNode)) >>= fun _ => pure list) =
      total ((Node.validate (some list.toNode)).map fun _ => list)
    cases Node.validate (some list.toNode) <;> rfl

/-- The descent compiles every text as `parse` does: no access to the stack of names, to the tokens or to an attribute
goes wrong, and all that its calls rely on holds. A list comes out, or a fault of the text, of the policy or of the
shape of the tree. -/
theorem descend_total (config : Config) (text : Text) :
    (descend config text).run = some (parse config text) ∧
      ((∃ list, parse config text = .ok list) ∨ (∃ cause, parse config text = .error (.malformed cause)) ∨
        (∃ cause, parse config text = .error (.violation cause)) ∨
        ∃ cause, parse config text = .error (.misshapen cause)) := by
  refine ⟨congrArg ExceptT.run (descend_eq config text), ?_⟩
  rw [parse_eq_compile]
  have hfaults : Faults (fun fault => fault.kind ≠ .sheet) (compile config text) :=
    faults_compile (by simp [Fault.kind]) (by simp [Fault.kind]) (by simp [Fault.kind])
  cases hcompile : compile config text with
  | ok list => exact .inl ⟨list, rfl⟩
  | error fault =>
    cases fault with
    | malformed cause => exact .inr (.inl ⟨cause, rfl⟩)
    | violation cause => exact .inr (.inr (.inl ⟨cause, rfl⟩))
    | misshapen cause => exact .inr (.inr (.inr ⟨cause, rfl⟩))
    | sheet cause => exact absurd rfl (hfaults _ hcompile)

end SelectorList

end CosmeticFilter
