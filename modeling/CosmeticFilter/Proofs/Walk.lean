import CosmeticFilter.Node.WellFormed
import CosmeticFilter.Proofs.Validity

/-!
# The check of a tree

`Node.validate` walks over a tree with a stack. `Node.validate_eq_iff` says without the stack what comes of it: the tree
itself if all of its nodes keep the rules of their kinds (`Node.Keeps`), and else the fault of the first node that does
not (`Node.Breaks`), where a node comes before the nodes below it and later children come before earlier ones
(`Node.walk`).

The stack stands for the walks over its nodes, one after the other (`checkStack_eq`); the rest is the rule of a single
node.
-/

namespace CosmeticFilter

/-! ### Checks one after the other -/

section

variable {α : Type} {check : α → Except Fault Unit} {xs : List α}

theorem forM_eq_ok_iff : forM xs check = .ok () ↔ ∀ x ∈ xs, check x = .ok () := by
  induction xs with
  | nil => simp [pure, Except.pure]
  | cons x xs ih =>
    rw [List.forM_cons, List.forall_mem_cons, ← ih]
    cases check x <;> simp [bind, Except.bind]

/-- Of several checks that fail, the first one decides. -/
theorem forM_eq_error_iff {fault : Fault} : forM xs check = .error fault ↔
    ∃ before x after, xs = before ++ x :: after ∧ (∀ y ∈ before, check y = .ok ()) ∧ check x = .error fault := by
  induction xs with
  | nil => simp [pure, Except.pure]
  | cons x xs ih =>
    rw [List.forM_cons]
    cases hx : check x with
    | error cause =>
      constructor
      · rintro ⟨⟩
        exact ⟨[], x, xs, rfl, nofun, hx⟩
      · rintro ⟨before, y, after, heq, hbefore, hy⟩
        cases before with
        | nil =>
          cases heq
          exact hx.symm.trans hy
        | cons z before =>
          cases heq
          cases hx.symm.trans (hbefore x List.mem_cons_self)
    | ok =>
      refine ih.trans ⟨?_, ?_⟩
      · rintro ⟨before, y, after, rfl, hbefore, hy⟩
        exact ⟨x :: before, y, after, rfl, List.forall_mem_cons.2 ⟨hx, hbefore⟩, hy⟩
      · rintro ⟨before, y, after, heq, hbefore, hy⟩
        cases before with
        | nil =>
          cases heq
          cases hx.symm.trans hy
        | cons z before =>
          cases heq
          exact ⟨before, y, after, rfl, fun w hw => hbefore w (List.mem_cons_of_mem _ hw), hy⟩

/-- The same of checks that fail for causes. -/
theorem forM_eq_misshapen_iff {Fails : α → Misshapen → Prop} {fault : Fault}
    (hcheck : ∀ x fault, check x = .error fault ↔ ∃ cause, Fails x cause ∧ fault = .misshapen cause) :
    forM xs check = .error fault ↔ ∃ before x after cause, xs = before ++ x :: after ∧
      (∀ y ∈ before, check y = .ok ()) ∧ Fails x cause ∧ fault = .misshapen cause := by
  rw [forM_eq_error_iff]
  constructor
  · rintro ⟨before, x, after, heq, hbefore, hx⟩
    obtain ⟨cause, hfails, hfault⟩ := (hcheck x fault).1 hx
    exact ⟨before, x, after, cause, heq, hbefore, hfails, hfault⟩
  · rintro ⟨before, x, after, cause, heq, hbefore, hfails, hfault⟩
    exact ⟨before, x, after, heq, hbefore, (hcheck x fault).2 ⟨cause, hfails, hfault⟩⟩

end

namespace Node

/-! ### The nodes of a tree -/

mutual

/-- The nodes of a tree: its root, then the nodes of the trees below it, the last one first. -/
def walk : Node → List Node
  | .leaf content => [.leaf content]
  | .branch content children => .branch content children :: walkAll children

/-- The nodes of the trees of a list, the last tree first. -/
def walkAll : List Node → List Node
  | [] => []
  | node :: nodes => walkAll nodes ++ walk node

end

/-- A node of a tree: its root, or a node of one of the trees below the root. -/
inductive Within : Node → Node → Prop
  | self (node : Node) : Within node node
  | child {node child parent : Node} (hmem : child ∈ parent.children) (h : Within node child) : Within node parent

variable {node child root : Node} {nodes children : List Node} {fault : Fault} {cause : Misshapen}

theorem walkAll_eq (nodes : List Node) : walkAll nodes = nodes.reverse.flatMap walk := by
  induction nodes with
  | nil => rfl
  | cons node nodes ih => simp [walkAll, ih]

theorem walk_eq (node : Node) : node.walk = node :: node.children.reverse.flatMap walk := by
  cases node with
  | leaf content => rfl
  | branch content children => rw [walk, walkAll_eq, Node.children]

theorem size_le_of_mem (h : child ∈ nodes) : child.size ≤ sizeAll nodes := by
  induction h with
  | head nodes => exact Nat.le_add_right _ _
  | tail node h ih => exact Nat.le_trans ih (Nat.le_add_left _ _)

/-- What holds of a node if it holds of its children holds of all nodes. -/
theorem tree_induction {P : Node → Prop} (hstep : ∀ node : Node, (∀ child ∈ node.children, P child) → P node)
    (node : Node) : P node := by
  induction hn : node.size using Nat.strong_induction_on generalizing node with
  | _ n ih =>
  refine hstep node fun child hchild => ih _ ?_ child rfl
  have hle := size_le_of_mem hchild
  have hsize := node.size_eq
  omega

/-- A walk meets all nodes of a tree, and no others. -/
theorem mem_walk_iff : node ∈ root.walk ↔ Within node root := by
  constructor
  · intro h
    induction root using tree_induction with
    | _ root ih =>
    rw [walk_eq, List.mem_cons, List.mem_flatMap] at h
    rcases h with rfl | ⟨child, hchild, hnode⟩
    · exact .self _
    · have hmem := List.mem_reverse.1 hchild
      exact .child hmem (ih child hmem hnode)
  · intro h
    induction h with
    | self =>
      rw [walk_eq]
      exact List.mem_cons_self
    | child hmem h ih =>
      rw [walk_eq]
      exact List.mem_cons_of_mem _ (List.mem_flatMap.2 ⟨_, List.mem_reverse.2 hmem, ih⟩)

/-! ### The rules of the kinds -/

/-- The node keeps the rule of its kind. -/
def Keeps : Node → Prop
  | .branch .selectorList children => children ≠ [] ∧ ∀ child ∈ children, child.kind = .selector
  | .branch .selector children => (∃ child ∈ children, child.kind = .regular) ∧
      ∀ child ∈ children, child.kind = .regular ∨ child.kind = .extended
  | .branch .extended children => ∃ child, children = [child] ∧ (child.kind = .absolute ∨ child.kind = .relative)
  | .branch (.relative name) children => name ≠ [] ∧ ∃ child, children = [child] ∧ child.kind = .selectorList
  | .leaf (.absolute name _) => name ≠ []
  | .leaf (.regular value) => value ≠ []

/-- What the node breaks the rule of its kind by. Of several faults an empty name comes first, then a wrong number of
children or the lack of a regular one, then a child of a wrong kind. -/
inductive Breaks : Node → Misshapen → Prop
  | emptyList : Breaks (.branch .selectorList []) .emptyList
  | listChild {children : List Node} (h : ∃ child ∈ children, child.kind ≠ .selector) :
      Breaks (.branch .selectorList children) .listChild
  | noRegular {children : List Node} (h : ∀ child ∈ children, child.kind ≠ .regular) :
      Breaks (.branch .selector children) .noRegularChild
  | selectorChild {children : List Node} (hregular : ∃ child ∈ children, child.kind = .regular)
      (h : ∃ child ∈ children, child.kind ≠ .regular ∧ child.kind ≠ .extended) :
      Breaks (.branch .selector children) .selectorChild
  | extendedArity {children : List Node} (h : children.length ≠ 1) :
      Breaks (.branch .extended children) .extendedArity
  | extendedChild {child : Node} (h : child.kind ≠ .absolute ∧ child.kind ≠ .relative) :
      Breaks (.branch .extended [child]) .extendedChild
  | relativeName {children : List Node} : Breaks (.branch (.relative []) children) .emptyName
  | relativeArity {name : Text} {children : List Node} (hname : name ≠ []) (h : children.length ≠ 1) :
      Breaks (.branch (.relative name) children) (.relativeArity name)
  | relativeChild {name : Text} {child : Node} (hname : name ≠ []) (h : child.kind ≠ .selectorList) :
      Breaks (.branch (.relative name) [child]) (.relativeChild name)
  | absoluteName {value : Text} : Breaks (.leaf (.absolute [] value)) .emptyName
  | regularValue : Breaks (.leaf (.regular [])) .emptyRegular

theorem isRegular_iff : node.isRegular = true ↔ node.kind = .regular := by
  simp [isRegular]

theorem firstRegular_eq_ok (h : ∃ child ∈ children, child.kind = .regular) :
    ∃ child, firstRegular none children = .ok child := by
  obtain ⟨regular, hmem, hkind⟩ := h
  rw [firstRegular]
  cases hfind : children.find? isRegular with
  | none => exact absurd (isRegular_iff.2 hkind) (List.find?_eq_none.1 hfind regular hmem)
  | some child => exact ⟨child, rfl⟩

theorem firstRegular_eq_error (h : ∀ child ∈ children, child.kind ≠ .regular) :
    firstRegular none children = .error (.misshapen .noRegularChild) := by
  have hfind : children.find? isRegular = none :=
    List.find?_eq_none.2 fun child hmem hregular => h child hmem (isRegular_iff.1 hregular)
  rw [firstRegular, hfind]
  rfl

theorem onlyChild_eq_ok (h : node.children = [child]) : node.onlyChild cause = .ok child := by
  rw [onlyChild, h]

theorem onlyChild_eq_error (h : node.children.length ≠ 1) : node.onlyChild cause = .error (.misshapen cause) := by
  rw [onlyChild]
  split
  · next hchild => exact absurd (by rw [hchild]; rfl) h
  · rfl

theorem Keeps.checkLocal_eq (h : node.Keeps) : node.checkLocal = .ok () := by
  cases node with
  | leaf content =>
    cases content with
    | regular value => rw [checkLocal, nonEmpty_eq_ok _ h]; rfl
    | absolute name value => rw [checkLocal, nonEmpty_eq_ok _ h]; rfl
  | branch content children =>
    cases content with
    | selectorList =>
      obtain ⟨hne, hall⟩ := h
      simpa [checkLocal, checkChildren, hne] using hall
    | selector =>
      obtain ⟨hregular, hall⟩ := h
      obtain ⟨first, hfirst⟩ := firstRegular_eq_ok hregular
      simpa [checkLocal, hfirst, checkChildren, isRegular, bind, Except.bind, or_iff_not_imp_left] using hall
    | extended =>
      obtain ⟨child, rfl, hkind⟩ := h
      have honly : (Node.branch .extended [child]).onlyChild .extendedArity = .ok child := onlyChild_eq_ok rfl
      simp [checkLocal, pseudoClass, honly, isPseudoClass, hkind, bind, Except.bind, pure, Except.pure, Except.map]
    | relative name =>
      obtain ⟨hname, child, rfl, hkind⟩ := h
      have honly : (Node.branch (.relative name) [child]).onlyChild (.relativeArity name) = .ok child :=
        onlyChild_eq_ok rfl
      simp [checkLocal, argumentList, nonEmpty_eq_ok _ hname, honly, hkind, bind, Except.bind, pure, Except.pure,
        Except.map]

theorem Breaks.checkLocal_eq (h : Breaks node cause) : node.checkLocal = .error (.misshapen cause) := by
  cases h with
  | emptyList => rfl
  | @listChild children h =>
    obtain ⟨child, hmem, hkind⟩ := h
    have hne : children ≠ [] := List.ne_nil_of_mem hmem
    have hall : ¬ ∀ child ∈ children, child.kind = .selector := fun hall => hkind (hall child hmem)
    simpa [checkLocal, checkChildren, hne] using hall
  | noRegular h =>
    rw [checkLocal, firstRegular_eq_error h]
    rfl
  | @selectorChild children hregular h =>
    obtain ⟨first, hfirst⟩ := firstRegular_eq_ok hregular
    obtain ⟨child, hmem, hkind⟩ := h
    have hall : ¬ ∀ child ∈ children, child.kind = .regular ∨ child.kind = .extended :=
      fun hall => (hall child hmem).elim hkind.1 hkind.2
    simpa [checkLocal, hfirst, checkChildren, isRegular, bind, Except.bind, or_iff_not_imp_left] using hall
  | @extendedArity children h =>
    have honly : (Node.branch .extended children).onlyChild .extendedArity = _ := onlyChild_eq_error h
    rw [checkLocal, pseudoClass, honly]
    rfl
  | @extendedChild child h =>
    have honly : (Node.branch .extended [child]).onlyChild .extendedArity = .ok child := onlyChild_eq_ok rfl
    simp [checkLocal, pseudoClass, honly, isPseudoClass, h, bind, Except.bind, Except.map]
  | relativeName => rfl
  | @relativeArity name children hname h =>
    have honly : (Node.branch (.relative name) children).onlyChild (.relativeArity name) = _ := onlyChild_eq_error h
    simp [checkLocal, argumentList, nonEmpty_eq_ok _ hname, honly, bind, Except.bind, Except.map]
  | @relativeChild name child hname h =>
    have honly : (Node.branch (.relative name) [child]).onlyChild (.relativeArity name) = .ok child :=
      onlyChild_eq_ok rfl
    simp [checkLocal, argumentList, nonEmpty_eq_ok _ hname, honly, h, bind, Except.bind, Except.map]
  | absoluteName => rfl
  | regularValue => rfl

theorem length_ne_one_or (nodes : List Node) : nodes.length ≠ 1 ∨ ∃ node, nodes = [node] := by
  rw [← List.length_eq_one_iff]
  exact ne_or_eq _ _

theorem keeps_or_breaks (node : Node) : node.Keeps ∨ ∃ cause, Breaks node cause := by
  cases node with
  | leaf content =>
    cases content with
    | regular value =>
      cases value with
      | nil => exact .inr ⟨_, .regularValue⟩
      | cons c value => exact .inl (List.cons_ne_nil c value)
    | absolute name value =>
      cases name with
      | nil => exact .inr ⟨_, .absoluteName⟩
      | cons c name => exact .inl (List.cons_ne_nil c name)
  | branch content children =>
    cases content with
    | selectorList =>
      by_cases hall : ∀ child ∈ children, child.kind = .selector
      · cases children with
        | nil => exact .inr ⟨_, .emptyList⟩
        | cons child children => exact .inl ⟨List.cons_ne_nil _ _, hall⟩
      · exact .inr ⟨_, .listChild (by simpa using hall)⟩
    | selector =>
      by_cases hregular : ∃ child ∈ children, child.kind = .regular
      · by_cases hall : ∀ child ∈ children, child.kind = .regular ∨ child.kind = .extended
        · exact .inl ⟨hregular, hall⟩
        · exact .inr ⟨_, .selectorChild hregular (by simpa using hall)⟩
      · exact .inr ⟨_, .noRegular (by simpa using hregular)⟩
    | extended =>
      rcases length_ne_one_or children with harity | ⟨child, rfl⟩
      · exact .inr ⟨_, .extendedArity harity⟩
      · by_cases hkind : child.kind = .absolute ∨ child.kind = .relative
        · exact .inl ⟨child, rfl, hkind⟩
        · exact .inr ⟨_, .extendedChild (not_or.1 hkind)⟩
    | relative name =>
      cases name with
      | nil => exact .inr ⟨_, .relativeName⟩
      | cons c name =>
        have hname : c :: name ≠ [] := List.cons_ne_nil c name
        rcases length_ne_one_or children with harity | ⟨child, rfl⟩
        · exact .inr ⟨_, .relativeArity hname harity⟩
        · by_cases hkind : child.kind = .selectorList
          · exact .inl ⟨hname, child, rfl, hkind⟩
          · exact .inr ⟨_, .relativeChild hname hkind⟩

theorem checkLocal_eq_ok_iff : node.checkLocal = .ok () ↔ node.Keeps := by
  refine ⟨fun h => ?_, Keeps.checkLocal_eq⟩
  rcases keeps_or_breaks node with hkeeps | ⟨cause, hbreaks⟩
  · exact hkeeps
  · rw [hbreaks.checkLocal_eq] at h
    cases h

theorem checkLocal_eq_error_iff :
    node.checkLocal = .error fault ↔ ∃ cause, Breaks node cause ∧ fault = .misshapen cause := by
  constructor
  · intro h
    rcases keeps_or_breaks node with hkeeps | ⟨cause, hbreaks⟩
    · rw [hkeeps.checkLocal_eq] at h
      cases h
    · rw [hbreaks.checkLocal_eq] at h
      cases h
      exact ⟨cause, hbreaks, rfl⟩
  · rintro ⟨cause, hbreaks, rfl⟩
    exact hbreaks.checkLocal_eq

/-! ### The walk -/

/-- The stack stands for the walks over its trees, one after the other. -/
theorem checkStack_eq (stack : List Node) : checkStack stack = forM (stack.flatMap walk) checkLocal := by
  fun_induction checkStack stack with
  | case1 => rfl
  | case2 node stack fault hfault =>
    rw [List.flatMap_cons, walk_eq, List.cons_append, List.forM_cons, hfault]
    rfl
  | case3 node stack hlocal ih =>
    rw [List.flatMap_cons, walk_eq, List.cons_append, List.forM_cons, hlocal, ih, List.flatMap_append]
    rfl

/-- The check of a tree accepts it, and gives it back, if all of its nodes keep the rules of their kinds. If some do
not, it tells the fault of the first one that the walk meets. -/
theorem validate_eq_iff (root : Node) :
    (∀ result, validate (some root) = .ok result ↔ result = root ∧ ∀ node, Within node root → node.Keeps) ∧
    ∀ fault, validate (some root) = .error fault ↔ ∃ before node after cause, root.walk = before ++ node :: after ∧
      (∀ earlier ∈ before, earlier.Keeps) ∧ Breaks node cause ∧ fault = .misshapen cause := by
  have hcheck : checkStack [root] = forM root.walk checkLocal := by simp [checkStack_eq]
  constructor
  · intro result
    rw [validate, hcheck, map_eq_ok_iff]
    constructor
    · rintro ⟨⟨⟩, hforM, rfl⟩
      rw [forM_eq_ok_iff] at hforM
      exact ⟨rfl, fun node hnode => checkLocal_eq_ok_iff.1 (hforM node (mem_walk_iff.2 hnode))⟩
    · rintro ⟨rfl, hkeeps⟩
      exact ⟨(), forM_eq_ok_iff.2 fun node hnode => (hkeeps node (mem_walk_iff.1 hnode)).checkLocal_eq, rfl⟩
  · intro fault
    rw [validate, hcheck, map_eq_error_iff, forM_eq_misshapen_iff fun _ _ => checkLocal_eq_error_iff]
    simp only [checkLocal_eq_ok_iff]

end Node

end CosmeticFilter
