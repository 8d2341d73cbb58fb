import CosmeticFilter.Node.Json
import CosmeticFilter.Proofs.Moves
import CosmeticFilter.Proofs.Walk

/-!
# The JSON form of a tree

`Node.toJson` and `Node.ofJson` are inverse to each other, as far as a form is complete (`Node.ofJson_inverse`): a tree is
read back from its form, and what is read from any form has as its form the completed one (`Node.completed`).

Whether a form can be read, and which fault is told if not, is a matter of single checks, one of the type of each object
and one of the children of each leaf. `Node.checks` has them in order, without any reading: the type of an object, then
the checks of its children from left to right, then whether it may have them. Reading fails with the first of them that
fails (`ofJson_map_eq`).
-/

namespace CosmeticFilter

namespace Json

/-- The children of an object. What is no list has no children in it. -/
def children (j : Json) : List Json :=
  match j.field? Node.childrenKey with
  | some (.arr items) => items
  | _ => []

/-- An object of a form: the form itself, or an object of one of its children. -/
inductive Within : Json → Json → Prop
  | self (j : Json) : Within j j
  | child {j child parent : Json} (hmem : child ∈ parent.children) (h : Within j child) : Within j parent

variable {j child value : Json} {key : Text}

theorem sizeOf_lt_of_field? (h : j.field? key = some value) : sizeOf value < sizeOf j := by
  cases j with
  | obj fields =>
    obtain ⟨before, after, rfl, -⟩ := List.lookup_eq_some_iff.1 h
    have hlt : sizeOf (key, value) < sizeOf (before ++ (key, value) :: after) := List.sizeOf_lt_of_mem (by simp)
    simp only [Prod.mk.sizeOf_spec, Json.obj.sizeOf_spec] at hlt ⊢
    omega
  | _ => cases h

theorem sizeOf_lt_of_mem_children (h : child ∈ j.children) : sizeOf child < sizeOf j := by
  rw [children] at h
  split at h
  · next items hitems =>
    have hfield := sizeOf_lt_of_field? hitems
    have hmem := List.sizeOf_lt_of_mem h
    simp only [Json.arr.sizeOf_spec] at hfield
    omega
  · cases h

/-- What holds of a form if it holds of its children holds of all forms. -/
@[elab_as_elim]
theorem form_induction {P : Json → Prop} (hstep : ∀ j : Json, (∀ child ∈ j.children, P child) → P j) (j : Json) :
    P j :=
  hstep j fun child _ => form_induction hstep child
termination_by sizeOf j
decreasing_by exact sizeOf_lt_of_mem_children ‹_›

end Json

theorem NodeKind.ofText?_eq_some_iff {t : Text} {kind : NodeKind} : ofText? t = some kind ↔ t = kind.text := by
  constructor
  · intro h
    have htext : kind.text = t := by simpa using List.find?_some h
    exact htext.symm
  · rintro rfl
    cases kind <;> rfl

namespace Node

open Json

/-- The object names the kind as its type. -/
def Names (j : Json) (kind : NodeKind) : Prop := j.field? kindKey = some (.str kind.text)

/-- The kinds of nodes without children. -/
abbrev IsLeaf (kind : NodeKind) : Prop := kind = .regular ∨ kind = .absolute

/-- The object can be read, apart from its children: its kind is known, and it has no children if it is a leaf. -/
def Readable (j : Json) : Prop := ∃ kind, Names j kind ∧ (IsLeaf kind → j.children = [])

/-- The fields that a kind has between its type and its children. -/
def textKeys : NodeKind → List Text
  | .selectorList | .selector | .extended => []
  | .relative => [nameKey]
  | .regular => [valueKey]
  | .absolute => [nameKey, valueKey]

/-- The form in which each object has the fields of its kind, and no others. Texts and children that it does not have
are empty. -/
def completed (j : Json) : Json :=
  match kindOf? j with
  | some kind =>
    object kind ((textKeys kind).map fun key => (key, j.textField key))
      (j.children.attach.map fun ⟨child, _⟩ => completed child)
  | none => j
termination_by sizeOf j
decreasing_by exact sizeOf_lt_of_mem_children ‹_›

/-- A check of a form: of the type of an object, or of the children of a leaf. -/
inductive Check where
  | kind (j : Json)
  | leaf (j : Json)

/-- What the check fails by. -/
inductive Check.Fails : Check → Misshapen → Prop
  | kind {j : Json} (h : ∀ kind, ¬ Names j kind) : Fails (.kind j) (.unknownKind j)
  | leaf {j : Json} {kind : NodeKind} (hkind : Names j kind) (hleaf : IsLeaf kind) (h : j.children ≠ []) :
      Fails (.leaf j) (.leafWithChildren kind.text)

/-- The checks of a form in order. The type of an object is checked before its children, and these before it is
refused for having some. -/
def checks (j : Json) : List Check :=
  .kind j :: j.children.attach.flatMap (fun ⟨child, _⟩ => checks child) ++ [.leaf j]
termination_by sizeOf j
decreasing_by exact sizeOf_lt_of_mem_children ‹_›

variable {j : Json} {kind : NodeKind} {items : List Json} {node : Node} {nodes : List Node} {fault : Fault}

theorem completed_of_kind (h : kindOf? j = some kind) : completed j =
    object kind ((textKeys kind).map fun key => (key, j.textField key)) (j.children.map completed) := by
  rw [completed, h]
  simp

theorem checks_eq (j : Json) : checks j = .kind j :: j.children.flatMap checks ++ [.leaf j] := by
  rw [checks]
  simp [List.flatMap]

/-! ### Types -/

theorem kindOf?_eq_some_iff : kindOf? j = some kind ↔ Names j kind := by
  rw [kindOf?, Names]
  split
  · next t ht => simp [ht, NodeKind.ofText?_eq_some_iff]
  · next hne => simpa using fun h => hne _ h

theorem kindOf?_eq_none_iff : kindOf? j = none ↔ ∀ kind, ¬ Names j kind := by
  simp only [Option.eq_none_iff_forall_ne_some, ne_eq, kindOf?_eq_some_iff]

/-! ### Reading -/

theorem ofItems_eq_ok_iff :
    ofItems items = .ok nodes ↔ List.Forall₂ (fun item node => ofJson item = .ok node) items nodes := by
  induction items generalizing nodes with
  | nil => simp [ofItems, eq_comm]
  | cons item items ih =>
    rw [ofItems, List.forall₂_cons_left_iff]
    constructor
    · intro h
      obtain ⟨node, hnode, h⟩ := bind_eq_ok_iff.1 h
      obtain ⟨rest, hrest, h⟩ := bind_eq_ok_iff.1 h
      cases h
      exact ⟨node, rest, hnode, ih.1 hrest, rfl⟩
    · rintro ⟨node, rest, hnode, hrest, rfl⟩
      exact bind_eq_ok_iff.2 ⟨node, hnode, bind_eq_ok_iff.2 ⟨rest, ih.2 hrest, rfl⟩⟩

theorem ofChildren_eq (fields : List (Text × Json)) : ofChildren fields = ofItems (Json.obj fields).children := by
  induction fields with
  | nil => rfl
  | cons field fields ih =>
    obtain ⟨key, value⟩ := field
    by_cases hkey : key = childrenKey
    · subst hkey
      cases value <;> simp [ofChildren, Json.children, field?, ofItems]
    · have hchildren : (Json.obj ((key, value) :: fields)).children = (Json.obj fields).children := by
        rw [Json.children, field?, List.lookup_cons, beq_false_of_ne (Ne.symm hkey)]
        rfl
      have hskip : ofChildren ((key, value) :: fields) = ofChildren fields := by cases value <;> simp [ofChildren, hkey]
      rw [hskip, ih, hchildren]

theorem ofJson_of_kind (h : Names j kind) : ofJson j = (ofItems j.children).bind (build kind j) := by
  have hkind := kindOf?_eq_some_iff.2 h
  cases j with
  | obj fields =>
    rw [ofJson, hkind, ofChildren_eq]
    rfl
  | _ => cases hkind

theorem ofJson_of_unknown (h : ∀ kind, ¬ Names j kind) : ofJson j = .error (.misshapen (.unknownKind j)) := by
  cases j with
  | obj fields => rw [ofJson, kindOf?_eq_none_iff.2 h]
  | _ => rfl

/-! ### Round trips -/

theorem toJsonAll_eq_map (nodes : List Node) : toJsonAll nodes = nodes.map toJson := by
  induction nodes with
  | nil => rfl
  | cons node nodes ih => rw [toJsonAll, ih, List.map_cons]

theorem names_toJson (node : Node) : Names node.toJson node.kind := by
  rcases node with ⟨_ | _⟩ | ⟨_ | _ | _ | _, _⟩ <;> rfl

theorem children_toJson (node : Node) : node.toJson.children = node.children.map toJson := by
  rw [← toJsonAll_eq_map]
  rcases node with ⟨_ | _⟩ | ⟨_ | _ | _ | _, _⟩ <;> rfl

theorem build_toJson (node : Node) : build node.kind node.toJson node.children = .ok node := by
  rcases node with ⟨_ | _⟩ | ⟨_ | _ | _ | _, _⟩ <;> rfl

/-- A tree is read back from its form. -/
theorem ofJson_toJson (node : Node) : ofJson node.toJson = .ok node := by
  induction node using tree_induction with
  | _ node ih =>
  have hitems : ofItems (node.children.map toJson) = .ok node.children :=
    ofItems_eq_ok_iff.2 (List.forall₂_map_left_iff.2 (List.forall₂_same.2 ih))
  rw [ofJson_of_kind node.names_toJson, children_toJson, hitems]
  exact node.build_toJson

theorem toJson_of_build (h : build kind j nodes = .ok node) :
    node.toJson = object kind ((textKeys kind).map fun key => (key, j.textField key)) (nodes.map toJson) := by
  rw [← toJsonAll_eq_map]
  cases kind with
  | regular | absolute =>
    rw [build] at h
    split at h
    · next hempty =>
      cases h
      rw [List.isEmpty_iff.1 hempty]
      rfl
    · cases h
  | _ =>
    cases h
    rfl

theorem map_toJson_of_ofItems (hitems : ∀ item ∈ items, ∀ node, ofJson item = .ok node → node.toJson = completed item)
    (h : ofItems items = .ok nodes) : nodes.map toJson = items.map completed := by
  replace h := ofItems_eq_ok_iff.1 h
  induction h with
  | nil => rfl
  | @cons item node items nodes hnode _ ih =>
    obtain ⟨hitem, hitems⟩ := List.forall_mem_cons.1 hitems
    rw [List.map_cons, List.map_cons, hitem node hnode, ih hitems]

/-- The form of a tree that is read is the completed one. -/
theorem toJson_of_ofJson (h : ofJson j = .ok node) : node.toJson = completed j := by
  induction j using form_induction generalizing node with
  | _ j ih =>
  cases hkind : kindOf? j with
  | none =>
    rw [ofJson_of_unknown (kindOf?_eq_none_iff.1 hkind)] at h
    cases h
  | some kind =>
    rw [ofJson_of_kind (kindOf?_eq_some_iff.1 hkind)] at h
    obtain ⟨nodes, hnodes, hbuild⟩ := bind_eq_ok_iff.1 h
    rw [toJson_of_build hbuild, map_toJson_of_ofItems (fun child hchild _ => ih child hchild) hnodes,
      completed_of_kind hkind]

/-! ### Checks in order -/

/-- The outcome of a check. -/
def Check.run : Check → Except Fault Unit
  | .kind j =>
    match kindOf? j with
    | some _ => .ok ()
    | none => .error (.misshapen (.unknownKind j))
  | .leaf j =>
    match kindOf? j with
    | some kind => if IsLeaf kind ∧ j.children ≠ [] then .error (.misshapen (.leafWithChildren kind.text)) else .ok ()
    | none => .ok ()

theorem Check.run_eq_error_iff {check : Check} :
    check.run = .error fault ↔ ∃ cause, check.Fails cause ∧ fault = .misshapen cause := by
  constructor
  · intro h
    cases check with
    | kind j =>
      rw [run] at h
      split at h
      · cases h
      · next hkind =>
        cases h
        exact ⟨_, .kind (kindOf?_eq_none_iff.1 hkind), rfl⟩
    | leaf j =>
      rw [run] at h
      split at h
      · next kind hkind =>
        split at h
        · next hleaf =>
          cases h
          exact ⟨_, .leaf (kindOf?_eq_some_iff.1 hkind) hleaf.1 hleaf.2, rfl⟩
        · cases h
      · cases h
  · rintro ⟨cause, hfails, rfl⟩
    cases hfails with
    | kind h => rw [run, kindOf?_eq_none_iff.2 h]
    | leaf hkind hleaf h =>
      simp only [run, kindOf?_eq_some_iff.2 hkind]
      exact if_pos ⟨hleaf, h⟩

theorem Check.run_eq_ok_iff {check : Check} : check.run = .ok () ↔ ∀ cause, ¬ check.Fails cause := by
  constructor
  · intro h cause hfails
    rw [run_eq_error_iff.2 ⟨cause, hfails, rfl⟩] at h
    cases h
  · intro h
    cases hrun : check.run with
    | ok => rfl
    | error fault =>
      obtain ⟨cause, hfails, -⟩ := run_eq_error_iff.1 hrun
      exact absurd hfails (h cause)

theorem build_map_eq (hkind : Names j kind) (h : nodes = [] ↔ j.children = []) :
    (build kind j nodes).map (fun _ => ()) = (Check.leaf j).run := by
  simp only [Check.run, kindOf?_eq_some_iff.2 hkind, ne_eq, ← h]
  by_cases hnil : nodes = []
  · cases kind <;> simp [build, hnil, Except.map]
  · cases kind <;> simp [build, hnil, Except.map]

theorem ofItems_map_eq (hitems : ∀ item ∈ items, (ofJson item).map (fun _ => ()) = forM (checks item) Check.run) :
    (ofItems items).map (fun _ => ()) = forM (items.flatMap checks) Check.run := by
  induction items with
  | nil => rfl
  | cons item items ih =>
    obtain ⟨hitem, hitems⟩ := List.forall_mem_cons.1 hitems
    rw [List.flatMap_cons, List.forM_append, ← hitem, ← ih hitems, ofItems]
    cases ofJson item <;> cases ofItems items <;> rfl

/-- Reading fails with the first check that fails. -/
theorem ofJson_map_eq (j : Json) : (ofJson j).map (fun _ => ()) = forM (checks j) Check.run := by
  induction j using form_induction with
  | _ j ih =>
  rw [checks_eq, List.cons_append, List.forM_cons, List.forM_append, ← ofItems_map_eq ih, Check.run]
  cases hkind : kindOf? j with
  | none =>
    rw [ofJson_of_unknown (kindOf?_eq_none_iff.1 hkind)]
    rfl
  | some kind =>
    have hnames := kindOf?_eq_some_iff.1 hkind
    rw [ofJson_of_kind hnames]
    cases hnodes : ofItems j.children with
    | error fault => rfl
    | ok nodes =>
      have hlen := (ofItems_eq_ok_iff.1 hnodes).length_eq
      have hempty : nodes = [] ↔ j.children = [] := by rw [← List.length_eq_zero_iff, ← hlen, List.length_eq_zero_iff]
      have hleaf := build_map_eq hnames hempty
      change (build kind j nodes).map (fun _ => ()) = forM [Check.leaf j] Check.run
      rw [hleaf, List.forM_cons]
      cases (Check.leaf j).run <;> rfl

/-! ### Which forms can be read -/

theorem Names.unique {other : NodeKind} (h : Names j kind) (hother : Names j other) : other = kind := by
  have hkind := kindOf?_eq_some_iff.2 h
  rw [kindOf?_eq_some_iff.2 hother] at hkind
  exact Option.some.inj hkind

theorem readable_iff : Readable j ↔ (Check.kind j).run = .ok () ∧ (Check.leaf j).run = .ok () := by
  rw [Check.run_eq_ok_iff, Check.run_eq_ok_iff]
  constructor
  · rintro ⟨kind, hkind, hleaf⟩
    constructor
    · rintro _ ⟨hunknown⟩
      exact hunknown kind hkind
    · rintro _ (_ | ⟨hother, hisLeaf, hchildren⟩)
      obtain rfl := hkind.unique hother
      exact hchildren (hleaf hisLeaf)
  · rintro ⟨hkind, hleaf⟩
    by_cases hnames : ∃ kind, Names j kind
    · obtain ⟨kind, hnames⟩ := hnames
      refine ⟨kind, hnames, fun hisLeaf => ?_⟩
      by_contra hchildren
      exact hleaf _ (.leaf hnames hisLeaf hchildren)
    · exact absurd (.kind (not_exists.1 hnames)) (hkind _)

/-- All checks succeed if all objects of the form can be read, apart from their children. -/
theorem forall_checks_iff : (∀ check ∈ checks j, check.run = .ok ()) ↔ ∀ part, Json.Within part j → Readable part := by
  constructor
  · intro h part hpart
    induction hpart with
    | self =>
      rw [checks_eq] at h
      exact readable_iff.2 ⟨h _ (by simp), h _ (by simp)⟩
    | @child child parent hmem _ ih =>
      refine ih fun check hcheck => h check ?_
      rw [checks_eq]
      exact List.mem_cons_of_mem _ (List.mem_append_left _ (List.mem_flatMap.2 ⟨child, hmem, hcheck⟩))
  · intro h
    induction j using form_induction with
    | _ j ih =>
    intro check hcheck
    have hself := readable_iff.1 (h j (.self j))
    rw [checks_eq, List.cons_append, List.mem_cons, List.mem_append, List.mem_flatMap, List.mem_singleton] at hcheck
    rcases hcheck with rfl | ⟨child, hchild, hcheck⟩ | rfl
    · exact hself.1
    · exact ih child hchild (fun part hpart => h part (.child hchild hpart)) check hcheck
    · exact hself.2

/-- Trees and their forms determine each other. Every tree is read back from its form. A form can be read if all of its
objects name their kinds and none that is a leaf has children; then the form of its tree is the completed form. If it
cannot be read, the fault is that of the first of its checks that fails. -/
theorem ofJson_inverse : (∀ node : Node, ofJson node.toJson = .ok node) ∧ ∀ j : Json,
    ((∃ node, ofJson j = .ok node) ↔ ∀ part, Json.Within part j → Readable part) ∧
    (∀ node, ofJson j = .ok node → node.toJson = completed j) ∧
    ∀ fault, ofJson j = .error fault ↔ ∃ before check after cause, checks j = before ++ check :: after ∧
      (∀ earlier ∈ before, ∀ other, ¬ earlier.Fails other) ∧ check.Fails cause ∧ fault = .misshapen cause := by
  refine ⟨ofJson_toJson, fun j => ⟨?_, fun node => toJson_of_ofJson, fun fault => ?_⟩⟩
  · rw [← forall_checks_iff, ← forM_eq_ok_iff, ← ofJson_map_eq]
    cases ofJson j <;> simp [Except.map]
  · rw [← map_eq_error_iff, ofJson_map_eq, forM_eq_misshapen_iff fun _ _ => Check.run_eq_error_iff]
    simp only [Check.run_eq_ok_iff]

example : ofJson (.obj [(kindKey, .str "RegularSelector".toList), (childrenKey, .arr [.obj []])]) =
    .error (.misshapen (.unknownKind (.obj []))) := by rfl

end Node

end CosmeticFilter
