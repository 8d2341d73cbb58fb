import CosmeticFilter.Proofs.Shape

/-!
# Compiled lists pass the check of trees

The check of the tree at the end of `SelectorList.parse` asks for less than `Shape` promises, so it never
fails, and `parse` is `compile` (`parse_eq_compile`). Of the faults that concern the shape of a tree, only
one is left, and it stems from the compiler itself: a selector without any plain part.
-/

namespace CosmeticFilter

/-! ### The check of a tree -/

namespace Node

/-- The node and all nodes below it keep the rules of their kinds. -/
inductive Passes : Node → Prop
  | mk {node : Node} (hlocal : node.checkLocal = .ok ()) (hchildren : ∀ child ∈ node.children, Passes child) :
      Passes node

theorem checkStack_eq_ok {stack : List Node} (h : ∀ node ∈ stack, node.Passes) : checkStack stack = .ok () := by
  fun_induction checkStack stack with
  | case1 => rfl
  | case2 node stack fault hfault =>
    obtain ⟨hlocal, -⟩ := h node (by simp)
    rw [hlocal] at hfault
    cases hfault
  | case3 node stack hlocal ih =>
    obtain ⟨-, hchildren⟩ := h node (by simp)
    refine ih fun m hm => ?_
    rcases List.mem_append.1 hm with hm | hm
    · exact hchildren m (List.mem_reverse.1 hm)
    · exact h m (by simp [hm])

theorem Passes.validate {node : Node} (h : node.Passes) : Node.validate (some node) = .ok node := by
  rw [Node.validate, checkStack_eq_ok (by simpa using h)]
  rfl

end Node

open Node

namespace PseudoClass

theorem ne_nil_of_mem_relativeNames : ∀ name ∈ relativeNames, name ≠ [] := by decide

theorem ne_nil_of_mem_absoluteNames : ∀ name ∈ absoluteNames, name ≠ [] := by decide

end PseudoClass

theorem nonEmpty_eq_ok {text : Text} (fault : Misshapen) (h : text ≠ []) : nonEmpty text fault = .ok text := by
  rw [nonEmpty, if_neg (by simpa using h)]

namespace Part

theorem kind_toNode (part : Part) : (part.toNode.isRegular || part.toNode.kind = .extended) = true := by
  cases part <;> simp [toNode, Node.isRegular, Node.kind]

theorem partNodes_eq_map (parts : List Part) : partNodes parts = parts.map toNode := by
  induction parts with
  | nil => rfl
  | cons part parts ih => simp [partNodes, ih]

theorem listNodes_eq_map (list : SelectorList) :
    listNodes list = list.map fun selector => .branch .selector (partNodes selector) := by
  induction list with
  | nil => rfl
  | cons selector list ih => simp [listNodes, ih]

end Part

theorem Selector.Shaped.checkLocal {selector : Selector} (h : Selector.Shaped selector) :
    (Node.branch .selector (Part.partNodes selector)).checkLocal = .ok () := by
  obtain ⟨text, more, rfl, -⟩ := h.starts
  have hfirst : firstRegular none (Part.partNodes (.regular text :: more)) = .ok (.leaf (.regular text)) := by
    simp [firstRegular, Part.partNodes, Part.toNode, Node.isRegular, Node.kind]
  have hall : (Part.partNodes (.regular text :: more)).all
      (fun child => child.isRegular || child.kind = .extended) = true := by
    rw [Part.partNodes_eq_map, List.all_map, List.all_eq_true]
    exact fun part _ => part.kind_toNode
  simp [Node.checkLocal, hfirst, checkChildren, hall, bind, Except.bind]

theorem SelectorList.checkLocal_toNode {list : SelectorList} (hne : list ≠ []) :
    list.toNode.checkLocal = .ok () := by
  have hnodes : Part.listNodes list ≠ [] := by simpa [Part.listNodes_eq_map] using hne
  have hall : (Part.listNodes list).all (fun child => child.kind = .selector) = true := by
    rw [Part.listNodes_eq_map, List.all_map, List.all_eq_true]
    exact fun _ _ => rfl
  simp [SelectorList.toNode, Node.checkLocal, hnodes, checkChildren, hall]

mutual

theorem Part.passes_toNode {names : List Text} (part : Part) (hcomplete : part.Complete)
    (h : part.Everywhere (fun _ => Selector.Shaped) names) : part.toNode.Passes := by
  match part, hcomplete, h with
  | .regular text, hcomplete, _ =>
    obtain ⟨c, hc, -⟩ := hcomplete
    have hne : text ≠ [] := by
      rintro rfl
      cases hc
    exact .mk (by simp [toNode, checkLocal, nonEmpty_eq_ok _ hne, Except.map]) (by simp [toNode, children])
  | .absolute name argument, hcomplete, _ =>
    have hne := PseudoClass.ne_nil_of_mem_absoluteNames name hcomplete
    refine .mk rfl fun child hchild => ?_
    rw [List.mem_singleton.1 hchild]
    exact .mk (by simp [checkLocal, nonEmpty_eq_ok _ hne, Except.map]) (by simp [children])
  | .relative name argument, hcomplete, h =>
    have hne := PseudoClass.ne_nil_of_mem_relativeNames name hcomplete
    obtain ⟨hlist, hselectors⟩ := SelectorList.everywhere_iff.1 (h name argument rfl)
    refine .mk rfl fun child hchild => ?_
    rw [List.mem_singleton.1 hchild]
    refine .mk ?_ fun list hmem => ?_
    · simp [checkLocal, argumentList, nonEmpty_eq_ok _ hne, onlyChild, children, kind, bind, Except.bind,
        pure, Except.pure, Except.map]
    · rw [List.mem_singleton.1 hmem]
      exact .mk (SelectorList.checkLocal_toNode hlist) (Part.passes_listNodes argument hselectors)

theorem Part.passes_partNodes {names : List Text} (parts : List Part)
    (h : ∀ part ∈ parts, part.Complete ∧ part.Everywhere (fun _ => Selector.Shaped) names) :
    ∀ node ∈ partNodes parts, node.Passes := by
  match parts, h with
  | [], _ => simp [partNodes]
  | part :: parts, h =>
    intro node hnode
    rcases List.mem_cons.1 hnode with rfl | hnode
    · exact Part.passes_toNode part (h part (by simp)).1 (h part (by simp)).2
    · exact Part.passes_partNodes parts (fun p hp => h p (by simp [hp])) node hnode

theorem Part.passes_listNodes {names : List Text} (list : List (List Part))
    (h : ∀ selector ∈ list, Selector.Everywhere (fun _ => Selector.Shaped) names selector) :
    ∀ node ∈ listNodes list, node.Passes := by
  match list, h with
  | [], _ => simp [listNodes]
  | selector :: list, h =>
    intro node hnode
    rcases List.mem_cons.1 hnode with rfl | hnode
    · obtain ⟨hshaped, hnested⟩ := h selector (by simp)
      have hparts : ∀ part ∈ selector, part.Complete ∧ part.Everywhere (fun _ => Selector.Shaped) names :=
        fun part hpart => ⟨hshaped.complete part hpart, hnested part hpart⟩
      exact .mk hshaped.checkLocal (Part.passes_partNodes selector hparts)
    · exact Part.passes_listNodes list (fun s hs => h s (by simp [hs])) node hnode

end

/-- The check accepts every list that is well shaped at all levels. -/
theorem SelectorList.validate_toNode {list : SelectorList} {names : List Text}
    (h : list.Everywhere (fun _ => Selector.Shaped) names) :
    Node.validate (some list.toNode) = .ok list.toNode := by
  obtain ⟨hne, hselectors⟩ := everywhere_iff.1 h
  exact Passes.validate (.mk (checkLocal_toNode hne) (Part.passes_listNodes list hselectors))

theorem SelectorList.parse_eq_compile (config : Config) (text : Text) : parse config text = compile config text := by
  rw [parse]
  cases hcompile : compile config text with
  | error fault => rfl
  | ok list =>
    have hvalidate := validate_toNode (shaped_of_compile hcompile).1
    simp [Except.bind, hvalidate, Except.map]

/-! ### Faults -/

/-- Where the computation fails, `P` holds of the fault. -/
def Faults (P : Fault → Prop) {α : Type} (x : Except Fault α) : Prop := ∀ fault, x = .error fault → P fault

section

variable {P : Fault → Prop} {α β : Type}

@[simp] theorem faults_ok (a : α) : Faults P (.ok a) := nofun

@[simp] theorem faults_error_iff {fault : Fault} : Faults P (.error fault : Except Fault α) ↔ P fault := by
  simp [Faults]

theorem Faults.bind {x : Except Fault α} {f : α → Except Fault β} (hx : Faults P x) (hf : ∀ a, Faults P (f a)) :
    Faults P (x.bind f) := by
  intro fault h
  cases x with
  | error _ =>
    cases h
    exact hx fault rfl
  | ok a => exact hf a fault h

theorem Faults.map {x : Except Fault α} {f : α → β} (hx : Faults P x) : Faults P (x.map f) := by
  intro fault h
  cases x with
  | error _ =>
    cases h
    exact hx fault rfl
  | ok a => cases h

end

namespace Selector

open State

variable {P : Fault → Prop} {input : Input} {s : State} {t : Token} {rest : List Token}

/-! The faults of attributes and arguments concern the text only, those of the ends of selectors also their
shape, and the checks of pseudo-classes the policy. -/

theorem faults_frame_finish {selector : Text} {f : Frame} (hregular : P (.misshapen (.noRegularPart selector))) :
    Faults P (f.finish selector) := by
  rw [Frame.finish]
  split <;> simp [hregular]

section

variable (hmalformed : ∀ cause, P (.malformed cause))

include hmalformed

theorem faults_closes (body : Text) : Faults P (Attribute.closes body) := by
  rw [Attribute.closes]
  split
  · split
    · simp [hmalformed]
    · split
      · simp [hmalformed]
      · split
        · rw [Attribute.endsValue]
          split
          · split <;> simp
          · split <;> simp [hmalformed]
        · simp
  · simp

theorem faults_opensIn (name argument : Text) : Faults P (Regexp.opensIn name argument) := by
  rw [Regexp.opensIn]
  split
  · simp
  · split
    · simp
    · dsimp only
      split <;> simp [hmalformed]

theorem faults_readAttribute (body : Text) : Faults P (s.readAttribute body t) := by
  rw [readAttribute]
  split
  · exact (faults_closes hmalformed body).bind fun _ => faults_ok _
  · exact faults_ok _

theorem faults_closeArgument (a : Argument) : Faults P (s.closeArgument input a) := by
  rw [closeArgument]
  split
  · split <;> simp [hmalformed]
  · split <;> simp [hmalformed]

theorem faults_readArgument (a : Argument) : Faults P (s.readArgument input a t) := by
  rw [readArgument]
  split
  · simp
  · split
    · exact (faults_opensIn hmalformed a.name a.text).map
    · split
      · simp
      · split
        · split
          · exact faults_closeArgument hmalformed a
          · simp
        · simp

theorem faults_readEnd? (hregular : P (.misshapen (.noRegularPart input.selector))) {end_ : Except Fault State}
    (h : s.readEnd? input t = some end_) : Faults P end_ := by
  rw [readEnd?] at h
  split at h
  · cases h
  · split at h
    · cases h
      exact (faults_frame_finish hregular).bind fun _ => faults_ok _
    · split at h
      · split at h
        · cases h
          rw [closeRelative]
          split
          · simp [hmalformed]
          · exact (faults_frame_finish hregular).bind fun _ => faults_ok _
        · cases h
      · cases h

theorem faults_finish (hregular : P (.misshapen (.noRegularPart input.selector))) :
    Faults P (s.finish input) := by
  rw [State.finish.eq_def]
  split
  · split <;> simp [hmalformed]
  · simp [hmalformed]
  · simp [hmalformed]
  · exact (faults_frame_finish hregular).bind fun _ => faults_ok _

end

section

variable (hviolation : ∀ cause, P (.violation cause))

include hviolation

theorem faults_checkInsideHas (name : Text) (openNames : List Text) :
    Faults P (Placement.checkInsideHas name openNames) := by
  rw [Placement.checkInsideHas]
  split <;> simp [hviolation]

theorem faults_checkHas (name : Text) (insideRegular afterPseudoElement : Bool) :
    Faults P (Placement.checkHas name insideRegular afterPseudoElement) := by
  rw [Placement.checkHas]
  split
  · split
    · simp [hviolation]
    · split <;> simp [hviolation]
  · simp

theorem faults_openExtended (name : Text) (kind : PseudoClass.Kind) :
    Faults P (s.openExtended input name kind) := by
  cases kind with
  | relative =>
    rw [openExtended, openRelative]
    split <;> simp [hviolation]
  | absolute =>
    rw [openExtended, openAbsolute]
    split
    · have hremove : Faults P (s.checkRemove input) := by
        rw [checkRemove]
        split
        · simp [hviolation]
        · split <;> simp [hviolation]
      exact hremove.bind fun _ => faults_ok _
    · exact faults_ok _

theorem faults_checkAfterRemove : Faults P (s.checkAfterRemove input t rest) := by
  rw [checkAfterRemove]
  split
  · simp
  · split <;> simp [hviolation]

end

section

variable (hmalformed : ∀ cause, P (.malformed cause)) (hviolation : ∀ cause, P (.violation cause))

include hmalformed hviolation

theorem faults_readColon : Faults P (s.readColon input rest) := by
  rw [readColon]
  split
  · simp
  · next name kind _ =>
    split
    · exact (faults_checkHas hviolation name true _).bind fun _ => faults_ok _
    · refine (faults_checkInsideHas hviolation name _).bind fun _ =>
        (faults_checkHas hviolation name false _).bind fun _ => ?_
      split
      · exact (faults_openExtended hviolation name kind).bind fun _ => faults_ok _
      · simp [hmalformed]

theorem faults_step (hregular : P (.misshapen (.noRegularPart input.selector))) :
    Faults P (s.step input t rest) := by
  rw [step]
  split
  · exact (faults_readAttribute hmalformed _).map
  · exact (faults_readArgument hmalformed _).map
  · refine (faults_checkAfterRemove hviolation).bind fun _ => ?_
    split
    · next hend => exact (faults_readEnd? hmalformed hregular hend).bind fun _ => faults_ok _
    · split
      · exact faults_readColon hmalformed hviolation
      · split <;> exact faults_ok _

theorem faults_run (hregular : P (.misshapen (.noRegularPart input.selector))) (skip : Nat) (tokens : List Token) :
    Faults P (s.run input skip tokens) := by
  induction tokens generalizing s skip with
  | nil => simp [run]
  | cons t rest ih =>
    cases skip with
    | succ skip => exact ih skip
    | zero =>
      rw [run]
      split
      · next fault hstep =>
        intro cause hcause
        cases hcause
        exact faults_step hmalformed hviolation hregular fault hstep
      · next next _ => exact ih next.skip

end

end Selector

namespace SelectorList

/-- Compiling fails with a fault of the text, of the policy, or because a selector has no plain part. -/
theorem faults_compile {P : Fault → Prop} {config : Config} {text : Text} (hmalformed : ∀ cause, P (.malformed cause))
    (hviolation : ∀ cause, P (.violation cause)) (hregular : P (.misshapen (.noRegularPart (Text.trimSpace text)))) :
    Faults P (compile config text) := by
  rw [compile]
  dsimp only
  split
  · simp [hmalformed]
  · exact (Selector.faults_run hmalformed hviolation hregular 0 _).bind fun _ =>
      Selector.faults_finish hmalformed hregular

/-- Compiling a text gives a list that is well shaped at every level of nesting, with no class that could
match the root after any element at the start; hence the check of the tree changes nothing, and no fault
of shape is reported but that of a selector without a plain part. -/
theorem compile_well_shaped (config : Config) (text : Text) :
    (∀ list, compile config text = .ok list → list.Everywhere (fun _ => Selector.Shaped) [] ∧
      list.BelowRoot ∧ Node.validate (some list.toNode) = .ok list.toNode) ∧
    parse config text = compile config text ∧
    ∀ cause, parse config text = .error (.misshapen cause) → cause = .noRegularPart (Text.trimSpace text) := by
  refine ⟨fun list h => ?_, parse_eq_compile config text, fun cause h => ?_⟩
  · obtain ⟨hshaped, hroot⟩ := shaped_of_compile h
    exact ⟨hshaped, hroot, validate_toNode hshaped⟩
  · rw [parse_eq_compile] at h
    have hfaults : Faults (fun fault => ∀ cause, fault = .misshapen cause → cause = .noRegularPart (Text.trimSpace text))
        (compile config text) := faults_compile nofun nofun (by simp)
    exact hfaults _ h cause rfl

theorem compile_well_shaped_nested :
    ∃ list, compile .standard ":not( a > :has(b) , [c] ) d:contains( e ), f".toList = .ok list ∧
      list.Everywhere (fun _ => Selector.Shaped) [] ∧ list.BelowRoot ∧
      Node.validate (some list.toNode) = .ok list.toNode := by
  have h : compile .standard ":not( a > :has(b) , [c] ) d:contains( e ), f".toList =
      .ok [[.regular "html *".toList, .relative "not".toList
          [[.regular "a > *".toList, .relative "has".toList [[.regular ['b']]]], [.regular "[c]".toList]],
          .regular " d".toList, .absolute "contains".toList " e ".toList], [.regular ['f']]] :=
    eq_ok_of_toOption (by decide +kernel)
  exact ⟨_, h, (compile_well_shaped _ _).1 _ h⟩

end SelectorList

end CosmeticFilter
