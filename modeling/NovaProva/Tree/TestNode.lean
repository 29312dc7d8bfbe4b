import NovaProva.Core.Event

/-!
# Tree — TestNode

`np/testnode.hxx` and `np/testnode.cxx`: the tree of test nodes, the functions and parameters a
node takes from its ancestors, and the walk over a subtree in preorder.

A `testnode_t *` into a tree is the path to the node from the root, innermost child index first, so
that `parent_` is the tail of a path and `next_` adds one to its head.
-/

namespace NovaProva

/-! ### Nodes -/

/-- What a call of a function does.  A test function returns `void`, which is `returned 0` here. -/
inductive Outcome where
  | returned (r : Int)
  | threw (ev : Event)
  deriving DecidableEq

/-- A function found by reflection, with what calling it does. -/
structure Func where
  path : CString
  name : CString
  outcome : Outcome
  deriving DecidableEq

/-- `testnode_t::parameter_t`, with the address of its variable.  An `unsigned int` counts through
its values. -/
structure Parameter where
  name : CString
  var : Nat
  values : List CString
  few : values.length < 2 ^ 32
  deriving DecidableEq

/-- What a `testnode_t` holds besides its links. -/
structure NodeData where
  name : Option CString := none
  before : Option Func := none
  test : Option Func := none
  after : Option Func := none
  parameters : List Parameter := []
  deriving DecidableEq

/-- `get_function`. -/
def NodeData.getFunction (a : NodeData) : FuncType → Option Func
  | .before => a.before
  | .test   => a.test
  | .after  => a.after
  | _       => none

/-- A test node with everything below it. -/
inductive TestNode where
  | mk (data : NodeData) (children : List TestNode)

namespace TestNode

/-- What a node has of its own. -/
def data : TestNode → NodeData
  | mk d _ => d

/-- The nodes below it, in their order. -/
def children : TestNode → List TestNode
  | mk _ cs => cs

end TestNode

/-- `testnode_t *`, not null. -/
abbrev Ptr := List Nat

namespace TestNode

/-- The node a pointer points at. -/
def at? (root : TestNode) : Ptr → Option TestNode
  | []      => some root
  | i :: up => (at? root up).bind fun a => a.children[i]?

/-- The nodes of the loop `for (a = this ; a ; a = a->parent_)`. -/
def chain (root : TestNode) : Ptr → List NodeData
  | []      => [root.data]
  | i :: up => ((root.at? (i :: up)).map data).toList ++ root.chain up

/-- `children_`. -/
def children? (root : TestNode) (p : Ptr) : Option Ptr :=
  if (root.at? (0 :: p)).isSome then some (0 :: p) else none

/-- `next_`. -/
def next? (root : TestNode) : Ptr → Option Ptr
  | []      => none
  | i :: up => if (root.at? ((i + 1) :: up)).isSome then some ((i + 1) :: up) else none

end TestNode

/-- A test node of the tree. -/
abbrev TestNode.Node (root : TestNode) := { p : Ptr // (root.at? p).isSome }

/-! ### What a node takes from its ancestors -/

/-- One turn of the loop of `get_fixtures`. -/
def pushFixture (type : FuncType) (fixtures : List Func) (a : NodeData) : List Func :=
  match a.getFunction type with
  | none   => fixtures
  | some f => if type = .before then f :: fixtures else fixtures ++ [f]

/-- `get_fixtures`. -/
def getFixtures (chain : List NodeData) (type : FuncType) : List Func :=
  chain.foldl (pushFixture type) []

/-- The setup functions, rootmost first. -/
theorem getFixtures_before (chain : List NodeData) :
    getFixtures chain .before = chain.reverse.filterMap (·.before) := by
  have h : ∀ (chain : List NodeData) (acc : List Func),
      chain.foldl (pushFixture .before) acc = chain.reverse.filterMap (·.before) ++ acc := by
    intro chain
    induction chain with
    | nil => intro acc; rfl
    | cons a chain ih =>
        intro acc
        rw [List.foldl_cons, ih, List.reverse_cons, List.filterMap_append]
        cases hb : a.before with
        | none => simp [pushFixture, NodeData.getFunction, hb]
        | some f => simp [pushFixture, NodeData.getFunction, hb]
  rw [getFixtures, h, List.append_nil]

/-- The teardown functions, leafmost first. -/
theorem getFixtures_after (chain : List NodeData) :
    getFixtures chain .after = chain.filterMap (·.after) := by
  have h : ∀ (chain : List NodeData) (acc : List Func),
      chain.foldl (pushFixture .after) acc = acc ++ chain.filterMap (·.after) := by
    intro chain
    induction chain with
    | nil => intro acc; rw [List.filterMap_nil, List.append_nil]; rfl
    | cons a chain ih =>
        intro acc
        rw [List.foldl_cons, ih, List.filterMap_cons]
        cases ha : a.after with
        | none => simp [pushFixture, NodeData.getFunction, ha]
        | some f => simp [pushFixture, NodeData.getFunction, ha]
  rw [getFixtures, h, List.nil_append]

/-- `testnode_t::assignment_t`. -/
structure Assignment where
  param : Parameter
  idx : Nat := 0
  deriving DecidableEq

/-- `create_assignments`. -/
def createAssignments (chain : List NodeData) : List Assignment :=
  chain.flatMap fun a => a.parameters.map fun p => { param := p }

/-- `bump`: the next assignments, `none` when they ran off the end of the values. -/
def bump : List Assignment → Option (List Assignment)
  | []      => none
  | a :: as =>
      if a.idx + 1 < a.param.values.length then some ({ a with idx := a.idx + 1 } :: as)
      else (bump as).map ({ a with idx := 0 } :: ·)

/-! ### The walk in preorder -/

/-- Why a model stops without a result. -/
inductive Fault where
  /-- a null pointer is followed -/
  | null
  /-- the loop has not ended yet -/
  | fuel
  deriving DecidableEq

/-- `testnode_t::preorder_iterator`. -/
structure PreorderIterator where
  base : Option Ptr := none
  node : Option Ptr := none
  deriving DecidableEq

/-- The loop that goes up and across, from the node `p`. -/
def upAndAcross (root : TestNode) (base : Option Ptr) : Ptr → Except Fault (Option Ptr)
  | [] => if base = some [] then .ok none else .error .null
  | i :: up =>
      if base = some (i :: up) then .ok none
      else match root.next? (i :: up) with
        | some q => .ok (some q)
        | none   => upAndAcross root base up

/-- `preorder_iterator::operator++`, to the node it moves to. -/
def PreorderIterator.succ (root : TestNode) (it : PreorderIterator) :
    Except Fault (Option Ptr) :=
  match it.node with
  | none   => .error .null
  | some p =>
      match root.children? p with
      | some q => .ok (some q)                                                   -- down
      | none =>
          if it.base ≠ some p ∧ (root.next? p).isSome then .ok (root.next? p)    -- across
          else upAndAcross root it.base p

/-! ### The nodes of a subtree -/

mutual

/-- The pointers to a node and to everything below it, in preorder. -/
def TestNode.preorder (p : Ptr) : TestNode → List Ptr
  | .mk _ cs => p :: preorderList p 0 cs

/-- The pointers of the children `cs`, which start at index `i` below `p`. -/
def TestNode.preorderList (p : Ptr) (i : Nat) : List TestNode → List Ptr
  | []      => []
  | c :: cs => TestNode.preorder (i :: p) c ++ preorderList p (i + 1) cs

end

/-- `node` is where the walk of `base` stands with the nodes `ps` still to come. -/
inductive Walk (root : TestNode) (base : Ptr) : Option Ptr → List Ptr → Prop where
  | done : Walk root base none []
  | visit {p : Ptr} {q : Option Ptr} {ps : List Ptr}
      (h : PreorderIterator.succ root ⟨base, p⟩ = .ok q) (hw : Walk root base q ps) :
      Walk root base (some p) (p :: ps)

namespace TestNode

variable {root : TestNode} {base : Ptr}

theorem upAndAcross_eq {i : Nat} {up : Ptr} (hb : base.length ≤ up.length) :
    upAndAcross root base (i :: up) =
      match root.next? (i :: up) with
      | some q => .ok (some q)
      | none   => upAndAcross root base up := by
  have hne : ¬ (some base = some (i :: up)) := by
    intro h
    have hl := congrArg List.length (Option.some.inj h)
    simp only [List.length_cons] at hl
    omega
  rw [upAndAcross, if_neg hne]

/-- The walk moves on from a node without children. -/
theorem succ_of_leaf {p : Ptr} (h : root.children? p = none) :
    PreorderIterator.succ root ⟨some base, some p⟩ = upAndAcross root base p := by
  simp only [PreorderIterator.succ, h]
  split
  case isTrue hn =>
    cases p with
    | nil => simp [next?] at hn
    | cons i up =>
        rw [upAndAcross, if_neg hn.1]
        obtain ⟨q, hq⟩ := Option.isSome_iff_exists.mp hn.2
        rw [hq]
  · rfl

mutual

/-- The walk goes through a node's subtree, and then where the loop up and across leads. -/
theorem walk_preorder {p : Ptr} (t : TestNode) (ht : root.at? p = some t)
    (hb : base.length ≤ p.length) {after : Option Ptr} (ha : upAndAcross root base p = .ok after)
    {qs : List Ptr} (hw : Walk root base after qs) :
    Walk root base (some p) (TestNode.preorder p t ++ qs) := by
  match t, ht with
  | .mk d [], ht =>
      have hc : root.children? p = none := by simp [children?, at?, ht, children]
      rw [preorder, preorderList]
      exact .visit (q := after) (by rw [succ_of_leaf hc, ha]) hw
  | .mk d (c :: cs), ht =>
      have h0 : root.at? (0 :: p) = some c := by simp [at?, ht, children]
      have hc : root.children? p = some (0 :: p) := by
        rw [children?, h0]
        rfl
      rw [preorder]
      refine .visit (q := some (0 :: p)) ?_ ?_
      · simp only [PreorderIterator.succ, hc]
      · exact walk_preorderList c cs [] ht rfl hb ha hw
termination_by sizeOf t

/-- The walk goes through the children of a node from the one at index `i` on. -/
theorem walk_preorderList {p : Ptr} (c : TestNode) (cs pre : List TestNode) {d : NodeData}
    (ht : root.at? p = some (.mk d (pre ++ c :: cs))) {i : Nat} (hi : pre.length = i)
    (hb : base.length ≤ p.length) {after : Option Ptr} (ha : upAndAcross root base p = .ok after)
    {qs : List Ptr} (hw : Walk root base after qs) :
    Walk root base (some (i :: p)) (preorderList p i (c :: cs) ++ qs) := by
  have hc : root.at? (i :: p) = some c := by simp [at?, ht, children, ← hi]
  have hb' : base.length ≤ (i :: p).length := hb.trans (Nat.le_succ _)
  rw [preorderList, List.append_assoc]
  match cs, ht with
  | [], ht =>
      have hn : root.next? (i :: p) = none := by simp [next?, at?, ht, children, ← hi]
      have ha' : upAndAcross root base (i :: p) = .ok after := by rw [upAndAcross_eq hb, hn, ha]
      rw [preorderList, List.nil_append]
      exact walk_preorder c hc hb' ha' hw
  | c' :: cs, ht =>
      have hn : root.next? (i :: p) = some ((i + 1) :: p) := by
        simp [next?, at?, ht, children, ← hi]
      have ha' : upAndAcross root base (i :: p) = .ok (some ((i + 1) :: p)) := by
        rw [upAndAcross_eq hb, hn]
      refine walk_preorder c hc hb' ha' ?_
      exact walk_preorderList c' cs (pre ++ [c]) (by simpa using ht) (by simp [hi]) hb ha hw
termination_by sizeOf c + sizeOf cs

end

/-- **A node's walk is its subtree in preorder**, and ends there: it does not go on to the node's
own siblings. -/
theorem walk_node {t : TestNode} (ht : root.at? base = some t) :
    Walk root base (some base) (TestNode.preorder base t) := by
  have ha : upAndAcross root base base = .ok none := by
    cases base with
    | nil => rfl
    | cons i up => rw [upAndAcross, if_pos rfl]
  have hw := walk_preorder t ht le_rfl ha .done
  rwa [List.append_nil] at hw

end TestNode

end NovaProva
