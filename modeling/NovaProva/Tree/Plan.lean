import NovaProva.Tree.TestNode

/-!
# Tree — Plan

`np/plan.cxx`: a plan is a vector of test nodes, and its iterator yields the tests at and below
each of them, once for every assignment of their parameters.  The iterator is three cursors: the
position in the vector, the position in the walk of one node, and the assignments.

When the walk of a node ends, `find_testable_node` moves to the next node of the vector and does
not start that node's walk: it goes on with the end position of the old one, which is null.  So a
plan can be iterated to its end exactly when it has at most one node.
-/

namespace NovaProva

/-- What the iterator yields: a node and the assignments of its parameters. -/
abbrev Item := Ptr × List Assignment

/-- `plan_t::iterator`; `vitr` is what is left of the vector, from `vitr_` to `vend_`. -/
structure PlanIterator where
  vitr : List Ptr
  nitr : PreorderIterator := {}
  assigns : List Assignment := []
  deriving DecidableEq

namespace PlanIterator

/-- `*this == plan_t::end()`; two assignment vectors of different sizes differ. -/
def isEnd (it : PlanIterator) : Bool :=
  it.vitr.isEmpty && it.nitr.node.isNone && it.assigns.isEmpty

/-- `find_testable_node`, in at most `fuel` turns of its loop. -/
def findTestableNode (root : TestNode) : Nat → PlanIterator → Except Fault PlanIterator
  | 0, _ => .error .fuel
  | fuel + 1, it =>
      match it.vitr with
      | [] => .error .null
      | _ :: rest =>
          match it.nitr.node with
          | none =>
              -- no more nodes in this subtree: `++vitr_`, and `nitr_` stays where it is
              if rest.isEmpty then .ok { it with vitr := rest } else .error .null
          | some p =>
              if ((root.at? p).bind fun a => a.data.test).isSome then
                .ok { it with assigns := createAssignments (root.chain p) }
              else
                match it.nitr.succ root with
                | .error e => .error e
                | .ok q => findTestableNode root fuel { it with nitr := { it.nitr with node := q } }

/-- The iterator's constructor. -/
def new (root : TestNode) (fuel : Nat) : List Ptr → Except Fault PlanIterator
  | []      => .ok { vitr := [] }
  | n :: ns => findTestableNode root fuel { vitr := n :: ns, nitr := ⟨some n, some n⟩ }

/-- `operator++`. -/
def succ (root : TestNode) (fuel : Nat) (it : PlanIterator) : Except Fault PlanIterator :=
  match bump it.assigns with
  | some as => .ok { it with assigns := as }
  | none =>
      match it.nitr.succ root with
      | .error e => .error e
      | .ok q =>
          findTestableNode root fuel { it with nitr := { it.nitr with node := q }, assigns := [] }

/-- The loop `for ( ; pitr != pend ; ++pitr)`: everything the iterator yields. -/
def collect (root : TestNode) : Nat → PlanIterator → Except Fault (List Item)
  | 0, _ => .error .fuel
  | fuel + 1, it =>
      if it.isEnd then .ok []
      else
        match it.nitr.node with
        | none   => .error .null
        | some p =>
            match it.succ root fuel with
            | .error e => .error e
            | .ok it'  => (collect root fuel it').map ((p, it.assigns) :: ·)

end PlanIterator

/-- Everything an iterator yields, once it was made. -/
def PlanIterator.collectFrom (root : TestNode) (fuel : Nat) :
    Except Fault PlanIterator → Except Fault (List Item)
  | .error e => .error e
  | .ok it   => it.collect root fuel

/-- Iterating a plan from `begin()` to `end()`. -/
def iteratePlan (root : TestNode) (fuel : Nat) (nodes : List Ptr) : Except Fault (List Item) :=
  PlanIterator.collectFrom root fuel (PlanIterator.new root fuel nodes)

/-- The plan is iterated to its end and yields `items`. -/
def Yields (root : TestNode) (nodes : List Ptr) (items : List Item) : Prop :=
  ∃ fuel, iteratePlan root fuel nodes = .ok items

/-! ### More fuel does not change a result -/

section Fuel

variable {root : TestNode}

namespace PlanIterator

theorem findTestableNode_mono {n m : Nat} {it : PlanIterator}
    (h : findTestableNode root n it ≠ .error .fuel) (hle : n ≤ m) :
    findTestableNode root m it = findTestableNode root n it := by
  induction n generalizing m it with
  | zero => exact absurd rfl h
  | succ n ih =>
      obtain ⟨m, rfl⟩ := Nat.exists_eq_add_of_lt hle
      rw [findTestableNode] at h
      rw [show n + m + 1 = (n + m) + 1 from rfl, findTestableNode, findTestableNode]
      split
      · rfl
      next hv =>
        split
        · rfl
        next p hp =>
          split
          · rfl
          case isFalse ht =>
            cases hs : it.nitr.succ root with
            | error e => rfl
            | ok q =>
                refine ih (fun hf => h ?_) (Nat.le_add_right n m)
                simp only [hv] at hf
                simpa [hv, hp, ht, hs] using hf

theorem succ_mono {n m : Nat} {it : PlanIterator} (h : it.succ root n ≠ .error .fuel)
    (hle : n ≤ m) : it.succ root m = it.succ root n := by
  rw [succ] at h
  rw [succ, succ]
  cases hb : bump it.assigns with
  | some as => rfl
  | none =>
      cases hs : it.nitr.succ root with
      | error e => rfl
      | ok q =>
          simp only [hb, hs] at h
          exact findTestableNode_mono h hle

theorem collect_mono {n m : Nat} {it : PlanIterator} (h : it.collect root n ≠ .error .fuel)
    (hle : n ≤ m) : it.collect root m = it.collect root n := by
  induction n generalizing m it with
  | zero => exact absurd rfl h
  | succ n ih =>
      obtain ⟨m, rfl⟩ := Nat.exists_eq_add_of_lt hle
      rw [collect] at h
      rw [show n + m + 1 = (n + m) + 1 from rfl, collect, collect]
      split
      · rfl
      case isFalse he =>
        split
        · rfl
        next p hp =>
          simp only [he, hp] at h
          have hs : it.succ root n ≠ .error .fuel := fun hs => h (by rw [hs]; rfl)
          rw [succ_mono hs (Nat.le_add_right n m)]
          cases hn : it.succ root n with
          | error e => rfl
          | ok it' =>
              rw [hn] at h
              have hc : it'.collect root n ≠ .error .fuel := fun hc => h (by simp [hc, Except.map])
              simp only [ih hc (Nat.le_add_right n m)]

theorem collectFrom_mono {n m : Nat} {it : PlanIterator}
    (h : collectFrom root n (findTestableNode root n it) ≠ .error .fuel) (hle : n ≤ m) :
    collectFrom root m (findTestableNode root m it) =
      collectFrom root n (findTestableNode root n it) := by
  have hf : findTestableNode root n it ≠ .error .fuel := fun hf => h (by rw [hf]; rfl)
  rw [findTestableNode_mono hf hle]
  cases hn : findTestableNode root n it with
  | error e => rfl
  | ok it' =>
      rw [hn] at h
      exact collect_mono h hle

end PlanIterator

/-- A plan yields one sequence. -/
theorem iteratePlan_unique {n m : Nat} {nodes : List Ptr}
    (hn : iteratePlan root n nodes ≠ .error .fuel)
    (hm : iteratePlan root m nodes ≠ .error .fuel) :
    iteratePlan root n nodes = iteratePlan root m nodes := by
  cases nodes with
  | nil =>
      have h := PlanIterator.collect_mono hn (Nat.le_max_left n m)
      have h' := PlanIterator.collect_mono hm (Nat.le_max_right n m)
      exact h.symm.trans h'
  | cons p ps =>
      have h := PlanIterator.collectFrom_mono hn (Nat.le_max_left n m)
      have h' := PlanIterator.collectFrom_mono hm (Nat.le_max_right n m)
      exact h.symm.trans h'

end Fuel

/-! ### The odometer stops -/

/-- Bumping the assignments again and again runs off the end of the values. -/
inductive Halts : List Assignment → Prop where
  | done {as : List Assignment} (h : bump as = none) : Halts as
  | step {as as' : List Assignment} (h : bump as = some as') (hs : Halts as') : Halts as

/-- The first assignment runs through its values before the others move. -/
theorem Halts.cons {as : List Assignment} (h : Halts as) (a : Assignment) : Halts (a :: as) := by
  -- the values left to the first assignment decrease until it starts again with the next of `as`
  have inner : ∀ (as : List Assignment), (∀ a : Assignment, bump as = none ∨
      ∃ as', bump as = some as' ∧ Halts ({ a with idx := 0 } :: as')) →
      ∀ (k : Nat) (a : Assignment), a.param.values.length - a.idx = k → Halts (a :: as) := by
    intro as hnext k
    induction k with
    | zero =>
        intro a hk
        have hlt : ¬ a.idx + 1 < a.param.values.length := by omega
        rcases hnext a with hb | ⟨as', hb, hh⟩
        · exact .done (by rw [bump, if_neg hlt, hb]; rfl)
        · exact .step (by rw [bump, if_neg hlt, hb]; rfl) hh
    | succ k ih =>
        intro a hk
        by_cases hlt : a.idx + 1 < a.param.values.length
        · refine .step (by rw [bump, if_pos hlt]) (ih _ ?_)
          show a.param.values.length - (a.idx + 1) = k
          omega
        · rcases hnext a with hb | ⟨as', hb, hh⟩
          · exact .done (by rw [bump, if_neg hlt, hb]; rfl)
          · exact .step (by rw [bump, if_neg hlt, hb]; rfl) hh
  induction h generalizing a with
  | done h => exact inner _ (fun _ => Or.inl h) _ a rfl
  | step h _ ih => exact inner _ (fun b => Or.inr ⟨_, h, ih _⟩) _ a rfl

theorem halts (as : List Assignment) : Halts as := by
  induction as with
  | nil => exact .done rfl
  | cons a as ih => exact ih.cons a

/-! ### Iterating a plan -/

/-- How the iteration of a plan ends that has the nodes `rest` after the one being walked. -/
def Ends (rest : List Ptr) (x : Except Fault (List Item)) : Prop :=
  if rest = [] then ∃ items, x = .ok items else x = .error .null

theorem Ends.ne_fuel {rest : List Ptr} {x : Except Fault (List Item)} (h : Ends rest x) :
    x ≠ .error .fuel := by
  rw [Ends] at h
  split at h
  · obtain ⟨items, rfl⟩ := h
    simp
  · rw [h]
    simp

theorem Ends.cons {rest : List Ptr} {x : Except Fault (List Item)} (h : Ends rest x)
    (item : Item) : Ends rest (x.map (item :: ·)) := by
  rw [Ends] at h ⊢
  split at h
  case isTrue hr =>
    obtain ⟨items, rfl⟩ := h
    rw [if_pos hr]
    exact ⟨item :: items, rfl⟩
  case isFalse hr =>
    rw [if_neg hr, h]
    rfl

section Iterate

variable {root : TestNode} {base : Ptr} {rest : List Ptr}

/-- The loop of `find_testable_node` stops at a test. -/
theorem findTestableNode_test {p : Ptr}
    (ht : ((root.at? p).bind fun a => a.data.test).isSome = true) (fuel : Nat) :
    PlanIterator.findTestableNode root (fuel + 1)
        { vitr := base :: rest, nitr := ⟨some base, some p⟩ } =
      .ok { vitr := base :: rest, nitr := ⟨some base, some p⟩,
            assigns := createAssignments (root.chain p) } := by
  simp [PlanIterator.findTestableNode, ht]

/-- It goes on from any other node. -/
theorem findTestableNode_next {p : Ptr} {q : Option Ptr}
    (ht : ¬ ((root.at? p).bind fun a => a.data.test).isSome = true)
    (hq : PreorderIterator.succ root ⟨some base, some p⟩ = .ok q) (fuel : Nat) :
    PlanIterator.findTestableNode root (fuel + 1)
        { vitr := base :: rest, nitr := ⟨some base, some p⟩ } =
      PlanIterator.findTestableNode root fuel
        { vitr := base :: rest, nitr := ⟨some base, q⟩ } := by
  simp only [PlanIterator.findTestableNode, if_neg ht, hq]

/-- Before the assignments run off their values the node stays. -/
theorem collect_step {p : Ptr} {as as' : List Assignment} (h : bump as = some as') (fuel : Nat) :
    PlanIterator.collect root (fuel + 1)
        { vitr := base :: rest, nitr := ⟨some base, some p⟩, assigns := as } =
      (PlanIterator.collect root fuel
        { vitr := base :: rest, nitr := ⟨some base, some p⟩, assigns := as' }).map
          ((p, as) :: ·) := by
  simp only [PlanIterator.collect, PlanIterator.isEnd, PlanIterator.succ, h,
    List.isEmpty_cons, Bool.false_and, Bool.false_eq_true, if_false]

/-- When the assignments run off their values the iterator goes on from the next node. -/
theorem collect_done {p : Ptr} {q : Option Ptr} {as : List Assignment} (h : bump as = none)
    (hq : PreorderIterator.succ root ⟨some base, some p⟩ = .ok q) (fuel : Nat) :
    PlanIterator.collect root (fuel + 1)
        { vitr := base :: rest, nitr := ⟨some base, some p⟩, assigns := as } =
      (PlanIterator.collectFrom root fuel (PlanIterator.findTestableNode root fuel
        { vitr := base :: rest, nitr := ⟨some base, q⟩ })).map ((p, as) :: ·) := by
  simp only [PlanIterator.collect, PlanIterator.isEnd, PlanIterator.succ, h, hq,
    List.isEmpty_cons, Bool.false_and, Bool.false_eq_true, if_false]
  cases PlanIterator.findTestableNode root fuel
      { vitr := base :: rest, nitr := ⟨some base, q⟩ } with
  | error e => rfl
  | ok it => rfl

/-- The iterator at a node with a test function, given how it goes on from the next node. -/
theorem ends_collect {p : Ptr} {q : Option Ptr}
    (hq : PreorderIterator.succ root ⟨some base, some p⟩ = .ok q)
    (hnext : ∃ n, Ends rest (PlanIterator.collectFrom root n (PlanIterator.findTestableNode root n
      { vitr := base :: rest, nitr := ⟨some base, q⟩ })))
    {as : List Assignment} (h : Halts as) :
    ∃ n, Ends rest (PlanIterator.collect root n
      { vitr := base :: rest, nitr := ⟨some base, some p⟩, assigns := as }) := by
  induction h with
  | @done as hb =>
      obtain ⟨n, hn⟩ := hnext
      refine ⟨n + 1, ?_⟩
      rw [collect_done hb hq]
      exact hn.cons (p, as)
  | @step as as' hb _ ih =>
      obtain ⟨n, hn⟩ := ih
      refine ⟨n + 1, ?_⟩
      rw [collect_step hb]
      exact hn.cons (p, as)

/-- The iterator goes through the walk of a node, and stops or follows the null pointer. -/
theorem ends_walk {node : Option Ptr} {ps : List Ptr} (hw : Walk root base node ps) :
    ∃ n, Ends rest (PlanIterator.collectFrom root n (PlanIterator.findTestableNode root n
      { vitr := base :: rest, nitr := ⟨some base, node⟩ })) := by
  induction hw with
  | done =>
      refine ⟨1, ?_⟩
      cases rest with
      | nil => exact ⟨[], rfl⟩
      | cons r rs => exact rfl
  | @visit p q ps hq _ ih =>
      by_cases ht : ((root.at? p).bind fun a => a.data.test).isSome = true
      · obtain ⟨n, hn⟩ := ends_collect hq ih (halts (createAssignments (root.chain p)))
        refine ⟨n + 1, ?_⟩
        rw [findTestableNode_test ht, PlanIterator.collectFrom]
        rwa [PlanIterator.collect_mono hn.ne_fuel (Nat.le_succ n)]
      · obtain ⟨n, hn⟩ := ih
        refine ⟨n + 1, ?_⟩
        have hm := PlanIterator.collectFrom_mono hn.ne_fuel (Nat.le_succ n)
        rw [PlanIterator.findTestableNode_mono
          (fun hf => hn.ne_fuel (by rw [hf]; rfl)) (Nat.le_succ n)] at hm
        rw [findTestableNode_next ht hq, hm]
        exact hn

theorem ends_iteratePlan (n : root.Node) (rest : List Ptr) :
    ∃ fuel, Ends rest (iteratePlan root fuel (n.1 :: rest)) := by
  obtain ⟨t, ht⟩ := Option.isSome_iff_exists.mp n.2
  exact ends_walk (TestNode.walk_node ht)

end Iterate

/-- **A plan yields the concatenation of what its nodes yield** exactly when it has at most one
node. -/
theorem iterate_plan_concatenates_iff (root : TestNode) (nodes : List root.Node) :
    (∃ itemss, List.Forall₂ (fun n items => Yields root [n.1] items) nodes itemss ∧
      Yields root (nodes.map (·.1)) itemss.flatten) ↔ nodes.length ≤ 1 := by
  match nodes with
  | [] =>
      refine ⟨fun _ => Nat.zero_le _, fun _ => ⟨[], .nil, 1, rfl⟩⟩
  | [n] =>
      refine ⟨fun _ => le_rfl, fun _ => ?_⟩
      obtain ⟨fuel, items, hn⟩ := ends_iteratePlan n []
      refine ⟨[items], .cons ⟨fuel, hn⟩ .nil, fuel, ?_⟩
      rw [List.flatten_singleton]
      exact hn
  | n :: m :: ns =>
      constructor
      · rintro ⟨itemss, -, fuel, hy⟩
        obtain ⟨fuel', hn⟩ := ends_iteratePlan n (m.1 :: ns.map (·.1))
        have hne : iteratePlan root fuel ((n :: m :: ns).map (·.1)) ≠ .error .fuel := by
          rw [hy]
          simp
        have hu := iteratePlan_unique hne (hn.ne_fuel)
        rw [hy] at hu
        rw [Ends, if_neg (by simp)] at hn
        cases hu.trans hn
      · intro h
        simp at h

/-- Two tests, each of them a node of the plan. -/
theorem iterate_plan_follows_null :
    ∃ (root : TestNode) (nodes : List root.Node), ¬ ∃ itemss,
      List.Forall₂ (fun n items => Yields root [n.1] items) nodes itemss ∧
      Yields root (nodes.map (·.1)) itemss.flatten := by
  let f : Func := ⟨.empty, .empty, .returned 0⟩
  let root : TestNode := .mk {} [.mk { test := some f } [], .mk { test := some f } []]
  refine ⟨root, [⟨[0], rfl⟩, ⟨[1], rfl⟩], ?_⟩
  rintro ⟨itemss, -, fuel, hy⟩
  have hy : iteratePlan root fuel [[0], [1]] = .ok itemss.flatten := hy
  have hnull : iteratePlan root 9 [[0], [1]] = .error .null := rfl
  have hu := iteratePlan_unique (by rw [hy]; simp) (by rw [hnull]; simp)
  rw [hy, hnull] at hu
  cases hu

end NovaProva
