import NovaProva.Tree.Plan
import Mathlib.Data.List.Nodup

/-!
# Tree — Combinations

What the iterator of a plan with one node yields: the tests at and below the node in preorder, each
with every combination of the values of its parameters, the first parameter varying fastest.

* `mem_preorder`, `nodup_preorder`: the walk has every node at or below the first one, once.
* `bumps_combinations`: the odometer goes through the combinations.
* `iterate_one_node`: both together.
-/

namespace NovaProva

/-! ### The nodes of a subtree, once each -/

namespace TestNode

mutual

theorem suffix_of_mem_preorder {p q : Ptr} (t : TestNode) (h : q ∈ preorder p t) : p <:+ q := by
  match t, h with
  | .mk d cs, h =>
      rw [preorder] at h
      rcases List.mem_cons.mp h with rfl | h
      · exact List.suffix_rfl
      · obtain ⟨j, -, hj⟩ := suffix_of_mem_preorderList cs h
        exact (List.suffix_cons j p).trans hj

/-- What is below the children from the one at index `i` on is below one of them. -/
theorem suffix_of_mem_preorderList {p q : Ptr} {i : Nat} (cs : List TestNode)
    (h : q ∈ preorderList p i cs) : ∃ j ≥ i, (j :: p) <:+ q := by
  match cs, h with
  | c :: cs, h =>
      rw [preorderList] at h
      rcases List.mem_append.mp h with h | h
      · exact ⟨i, Nat.le_refl i, suffix_of_mem_preorder c h⟩
      · obtain ⟨j, hj, hq⟩ := suffix_of_mem_preorderList cs h
        exact ⟨j, Nat.le_of_succ_le hj, hq⟩

end

/-- Two children that are above one node are the same. -/
theorem eq_of_cons_suffix {p q : Ptr} {i j : Nat} (hi : (i :: p) <:+ q) (hj : (j :: p) <:+ q) :
    i = j := by
  have heq := (List.suffix_of_suffix_length_le hi hj (by simp)).eq_of_length (by simp)
  exact (List.cons.inj heq).1

mutual

/-- The walk is at no node twice. -/
theorem nodup_preorder (p : Ptr) (t : TestNode) : (preorder p t).Nodup := by
  match t with
  | .mk d cs =>
      rw [preorder, List.nodup_cons]
      refine ⟨fun h => ?_, nodup_preorderList p 0 cs⟩
      obtain ⟨j, -, hj⟩ := suffix_of_mem_preorderList cs h
      have hlen := hj.length_le
      rw [List.length_cons] at hlen
      omega

theorem nodup_preorderList (p : Ptr) (i : Nat) (cs : List TestNode) :
    (preorderList p i cs).Nodup := by
  match cs with
  | [] =>
      rw [preorderList]
      exact List.nodup_nil
  | c :: cs =>
      rw [preorderList, List.nodup_append]
      refine ⟨nodup_preorder (i :: p) c, nodup_preorderList p (i + 1) cs, ?_⟩
      rintro q hq r hr rfl
      obtain ⟨j, hj, hjq⟩ := suffix_of_mem_preorderList cs hr
      have hij := eq_of_cons_suffix (suffix_of_mem_preorder c hq) hjq
      omega

end

variable {root : TestNode}

/-- Above a node there are nodes. -/
theorem isSome_at?_of_suffix {p q : Ptr} (h : p <:+ q) (hq : (root.at? q).isSome) :
    (root.at? p).isSome := by
  induction q with
  | nil =>
      rw [List.suffix_nil.mp h]
      exact hq
  | cons i q ih =>
      rcases List.suffix_cons_iff.mp h with rfl | h
      · exact hq
      · refine ih h ?_
        obtain ⟨a, ha⟩ := Option.isSome_iff_exists.mp hq
        obtain ⟨b, hb, -⟩ := Option.bind_eq_some_iff.mp ha
        exact Option.isSome_iff_exists.mpr ⟨b, hb⟩

mutual

theorem mem_preorder_of_suffix {p q : Ptr} (t : TestNode) (ht : root.at? p = some t)
    (hpq : p <:+ q) (hq : (root.at? q).isSome) : q ∈ preorder p t := by
  match t, ht with
  | .mk d cs, ht =>
      rw [preorder, List.mem_cons]
      obtain ⟨l, rfl⟩ := hpq
      rcases List.eq_nil_or_concat l with rfl | ⟨l, j, rfl⟩
      · exact .inl rfl
      · refine .inr (mem_preorderList_of_suffix cs [] ht rfl (Nat.zero_le j) ?_ hq)
        exact ⟨l, by simp⟩

theorem mem_preorderList_of_suffix {p q : Ptr} (cs pre : List TestNode) {d : NodeData}
    (ht : root.at? p = some (.mk d (pre ++ cs))) {i j : Nat} (hi : pre.length = i) (hij : i ≤ j)
    (hjq : (j :: p) <:+ q) (hq : (root.at? q).isSome) : q ∈ preorderList p i cs := by
  match cs, ht with
  | [], ht =>
      -- there are only `i` children
      have hj := isSome_at?_of_suffix hjq hq
      rw [at?, ht] at hj
      have hlt : j < pre.length := by simpa [children] using hj
      omega
  | c :: cs, ht =>
      rw [preorderList, List.mem_append]
      rcases Nat.eq_or_lt_of_le hij with rfl | hlt
      · have hc : root.at? (i :: p) = some c := by simp [at?, ht, children, ← hi]
        exact .inl (mem_preorder_of_suffix c hc hjq hq)
      · exact .inr (mem_preorderList_of_suffix cs (pre ++ [c]) (by simpa using ht)
          (by simp [hi]) hlt hjq hq)

end

mutual

theorem isSome_of_mem_preorder {p q : Ptr} (t : TestNode) (ht : root.at? p = some t)
    (h : q ∈ preorder p t) : (root.at? q).isSome := by
  match t, ht, h with
  | .mk d cs, ht, h =>
      rw [preorder] at h
      rcases List.mem_cons.mp h with rfl | h
      · rw [ht]
        rfl
      · exact isSome_of_mem_preorderList cs [] ht rfl h

theorem isSome_of_mem_preorderList {p q : Ptr} (cs pre : List TestNode) {d : NodeData}
    (ht : root.at? p = some (.mk d (pre ++ cs))) {i : Nat} (hi : pre.length = i)
    (h : q ∈ preorderList p i cs) : (root.at? q).isSome := by
  match cs, ht, h with
  | c :: cs, ht, h =>
      rw [preorderList] at h
      rcases List.mem_append.mp h with h | h
      · have hc : root.at? (i :: p) = some c := by simp [at?, ht, children, ← hi]
        exact isSome_of_mem_preorder c hc h
      · exact isSome_of_mem_preorderList cs (pre ++ [c]) (by simpa using ht) (by simp [hi]) h

end

/-- The walk of a node is at every node at or below it. -/
theorem mem_preorder {p q : Ptr} {t : TestNode} (ht : root.at? p = some t) :
    q ∈ preorder p t ↔ p <:+ q ∧ (root.at? q).isSome :=
  ⟨fun h => ⟨suffix_of_mem_preorder t h, isSome_of_mem_preorder t ht h⟩,
    fun h => mem_preorder_of_suffix t ht h.1 h.2⟩

/-- The node has a test function. -/
def testable (root : TestNode) (p : Ptr) : Bool :=
  ((root.at? p).bind fun a => a.data.test).isSome

/-- The parameters of a node: its own, and those of its ancestors. -/
def parameters (root : TestNode) (p : Ptr) : List Parameter :=
  (root.chain p).flatMap (·.parameters)

end TestNode

/-! ### The odometer -/

/-- Every combination of values of the parameters, the first parameter varying fastest. -/
def combinations : List Parameter → List (List Assignment)
  | []      => [[]]
  | p :: ps => (combinations ps).flatMap fun as =>
      (List.range p.values.length).map fun i => { param := p, idx := i } :: as

/-- The combinations are the ways to choose a value for each parameter. -/
theorem mem_combinations {ps : List Parameter} {as : List Assignment} :
    as ∈ combinations ps ↔
      as.map (·.param) = ps ∧ ∀ a ∈ as, a.idx < a.param.values.length := by
  induction ps generalizing as with
  | nil => simp +contextual [combinations]
  | cons p ps ih =>
      simp only [combinations, List.mem_flatMap, List.mem_map, List.mem_range]
      constructor
      · rintro ⟨bs, hbs, i, hi, rfl⟩
        obtain ⟨hmap, hall⟩ := ih.mp hbs
        refine ⟨by rw [List.map_cons, hmap], fun a ha => ?_⟩
        rcases List.mem_cons.mp ha with rfl | ha
        · exact hi
        · exact hall a ha
      · rintro ⟨hmap, hall⟩
        cases as with
        | nil => cases hmap
        | cons a bs =>
            obtain ⟨rfl, hbs⟩ := List.cons.inj hmap
            exact ⟨bs, ih.mpr ⟨hbs, fun b hb => hall b (List.mem_cons_of_mem _ hb)⟩, a.idx,
              hall a List.mem_cons_self, rfl⟩

theorem nodup_combinations (ps : List Parameter) : (combinations ps).Nodup := by
  induction ps with
  | nil => exact List.nodup_singleton _
  | cons p ps ih =>
      rw [combinations, List.nodup_flatMap]
      refine ⟨fun as _ => ?_, ih.imp fun {as bs} hne => ?_⟩
      · refine List.nodup_range.map fun i j hij => ?_
        exact congrArg Assignment.idx (List.cons.inj hij).1
      · rintro cs hcs hds
        obtain ⟨i, -, rfl⟩ := List.mem_map.mp hcs
        obtain ⟨j, -, hij⟩ := List.mem_map.mp hds
        exact hne (List.cons.inj hij).2.symm

/-- Bumping `as` again and again gives the assignments `ass`, and then runs off the end. -/
inductive Bumps : List Assignment → List (List Assignment) → Prop where
  | done {as : List Assignment} (h : bump as = none) : Bumps as [as]
  | step {as as' : List Assignment} {ass : List (List Assignment)} (h : bump as = some as')
      (hs : Bumps as' ass) : Bumps as (as :: ass)

/-- The first assignment runs through the values it has left, and then the others are bumped. -/
theorem bumps_values {p : Parameter} {as : List Assignment} {ass : List (List Assignment)}
    (hnext : bump as = none ∧ ass = [] ∨
      ∃ as', bump as = some as' ∧ Bumps ({ param := p, idx := 0 } :: as') ass) :
    ∀ k i, i + k + 1 = p.values.length → Bumps ({ param := p, idx := i } :: as)
      ((List.range' i (k + 1)).map (fun j => { param := p, idx := j } :: as) ++ ass) := by
  intro k
  induction k with
  | zero =>
      intro i hi
      have hlt : ¬ i + 1 < p.values.length := by omega
      rcases hnext with ⟨hb, rfl⟩ | ⟨as', hb, hs⟩
      · exact .done (by rw [bump, if_neg hlt, hb]; rfl)
      · exact .step (by rw [bump, if_neg hlt, hb]; rfl) hs
  | succ k ih =>
      intro i hi
      have hlt : i + 1 < p.values.length := by omega
      rw [List.range'_succ, List.map_cons, List.cons_append]
      exact .step (by rw [bump, if_pos hlt]) (ih (i + 1) (by omega))

theorem Bumps.cons {as : List Assignment} {ass : List (List Assignment)} (h : Bumps as ass)
    {p : Parameter} (hp : p.values ≠ []) :
    Bumps ({ param := p } :: as) (ass.flatMap fun as =>
      (List.range p.values.length).map fun i => { param := p, idx := i } :: as) := by
  obtain ⟨k, hk⟩ : ∃ k, p.values.length = k + 1 :=
    Nat.exists_eq_succ_of_ne_zero (fun h0 => hp (List.length_eq_zero_iff.mp h0))
  have hrange : List.range p.values.length = List.range' 0 (k + 1) := by
    rw [hk, List.range_eq_range']
  rw [hrange]
  induction h with
  | @done as hb =>
      have hvalues := bumps_values (p := p) (.inl ⟨hb, rfl⟩) k 0 (by omega)
      rw [List.flatMap_singleton]
      rwa [List.append_nil] at hvalues
  | @step as as' ass hb _ ih =>
      rw [List.flatMap_cons]
      exact bumps_values (.inr ⟨as', hb, ih⟩) k 0 (by omega)

/-- **The odometer goes through every combination once.** -/
theorem bumps_combinations {ps : List Parameter} (h : ∀ p ∈ ps, p.values ≠ []) :
    Bumps (ps.map fun p => { param := p }) (combinations ps) := by
  induction ps with
  | nil => exact .done rfl
  | cons p ps ih =>
      exact (ih fun q hq => h q (List.mem_cons_of_mem _ hq)).cons (h p List.mem_cons_self)

theorem createAssignments_eq (root : TestNode) (p : Ptr) :
    createAssignments (root.chain p) = (root.parameters p).map fun q => { param := q } := by
  rw [createAssignments, TestNode.parameters, List.map_flatMap]


/-! ### One node -/

/-- What a plan yields for the nodes `ps`. -/
def testItems (root : TestNode) (ps : List Ptr) : List Item :=
  (ps.filter root.testable).flatMap fun p => (combinations (root.parameters p)).map (p, ·)

section
variable {root : TestNode} {base : Ptr}

/-- The iterator at a test goes through the assignments, and then on from the next node. -/
theorem collect_bumps {p : Ptr} {q : Option Ptr} {items : List Item}
    (hq : PreorderIterator.succ root ⟨some base, some p⟩ = .ok q)
    (hnext : ∃ n, PlanIterator.collectFrom root n (PlanIterator.findTestableNode root n
      { vitr := [base], nitr := ⟨some base, q⟩ }) = .ok items)
    {as : List Assignment} {ass : List (List Assignment)} (h : Bumps as ass) :
    ∃ n, PlanIterator.collect root n
      { vitr := [base], nitr := ⟨some base, some p⟩, assigns := as } =
        .ok (ass.map (p, ·) ++ items) := by
  induction h with
  | @done as hb =>
      obtain ⟨n, hn⟩ := hnext
      refine ⟨n + 1, ?_⟩
      rw [collect_done hb hq, hn]
      rfl
  | @step as as' ass hb _ ih =>
      obtain ⟨n, hn⟩ := ih
      refine ⟨n + 1, ?_⟩
      rw [collect_step hb, hn]
      rfl

/-- The iterator goes through the tests of a walk. -/
theorem collect_walk {node : Option Ptr} {ps : List Ptr} (hw : Walk root base node ps)
    (hvals : ∀ p ∈ ps, ∀ q ∈ root.parameters p, q.values ≠ []) :
    ∃ n, PlanIterator.collectFrom root n (PlanIterator.findTestableNode root n
      { vitr := [base], nitr := ⟨some base, node⟩ }) = .ok (testItems root ps) := by
  induction hw with
  | done => exact ⟨1, rfl⟩
  | @visit p q ps hq _ ih =>
      have hrest := ih fun r hr => hvals r (List.mem_cons_of_mem _ hr)
      by_cases ht : root.testable p = true
      · have hitems : testItems root (p :: ps) =
            (combinations (root.parameters p)).map (p, ·) ++ testItems root ps := by
          rw [testItems, List.filter_cons_of_pos ht, List.flatMap_cons]
          rfl
        obtain ⟨n, hn⟩ := collect_bumps hq hrest
          (bumps_combinations (hvals p List.mem_cons_self))
        rw [← createAssignments_eq, ← hitems] at hn
        refine ⟨n + 1, ?_⟩
        rw [findTestableNode_test ht, PlanIterator.collectFrom,
          PlanIterator.collect_mono (by rw [hn]; simp) (Nat.le_succ n), hn]
      · have hitems : testItems root (p :: ps) = testItems root ps := by
          rw [testItems, List.filter_cons_of_neg ht]
          rfl
        obtain ⟨n, hn⟩ := hrest
        have hne : PlanIterator.findTestableNode root n
            { vitr := [base], nitr := ⟨some base, q⟩ } ≠ .error .fuel := by
          intro hf
          rw [hf] at hn
          cases hn
        refine ⟨n + 1, ?_⟩
        have hm := PlanIterator.collectFrom_mono (by rw [hn]; simp) (Nat.le_succ n)
        rw [PlanIterator.findTestableNode_mono hne (Nat.le_succ n), hn] at hm
        rw [findTestableNode_next ht hq, hitems]
        exact hm

/-- The parameters of a node are parameters of nodes of the tree. -/
theorem exists_node_of_mem_parameters {p : Ptr} {q : Parameter} (h : q ∈ root.parameters p) :
    ∃ r a, root.at? r = some a ∧ q ∈ a.data.parameters := by
  obtain ⟨d, hd, hq⟩ := List.mem_flatMap.mp h
  clear h
  induction p with
  | nil =>
      obtain rfl := List.mem_singleton.mp hd
      exact ⟨[], root, rfl, hq⟩
  | cons i up ih =>
      rw [TestNode.chain] at hd
      rcases List.mem_append.mp hd with hd | hd
      · obtain ⟨a, ha, rfl⟩ := Option.map_eq_some_iff.mp (Option.mem_toList.mp hd)
        exact ⟨i :: up, a, ha, hq⟩
      · exact ih hd

end

theorem mem_testItems {root : TestNode} {ps : List Ptr} {p : Ptr} {as : List Assignment} :
    (p, as) ∈ testItems root ps ↔ p ∈ ps ∧ root.testable p = true ∧
      as.map (·.param) = root.parameters p ∧ ∀ a ∈ as, a.idx < a.param.values.length := by
  rw [testItems, List.mem_flatMap]
  constructor
  · rintro ⟨q, hq, has⟩
    obtain ⟨bs, hbs, heq⟩ := List.mem_map.mp has
    cases heq
    obtain ⟨hmem, ht⟩ := List.mem_filter.mp hq
    exact ⟨hmem, ht, mem_combinations.mp hbs⟩
  · rintro ⟨hmem, ht, has⟩
    exact ⟨p, List.mem_filter.mpr ⟨hmem, ht⟩, List.mem_map.mpr ⟨as, mem_combinations.mpr has, rfl⟩⟩

theorem nodup_testItems {root : TestNode} {ps : List Ptr} (h : ps.Nodup) :
    (testItems root ps).Nodup := by
  rw [testItems, List.nodup_flatMap]
  refine ⟨fun p _ => ?_, (h.filter _).imp fun {p q} hne => ?_⟩
  · exact (nodup_combinations _).map fun as bs heq => (Prod.mk.inj heq).2
  · rintro item hp hq
    obtain ⟨as, -, rfl⟩ := List.mem_map.mp hp
    obtain ⟨bs, -, heq⟩ := List.mem_map.mp hq
    exact hne (Prod.mk.inj heq).1.symm

/-- **A plan with one node yields the tests at and below it**, in preorder, each with every
combination of the values of its parameters and its ancestors', once and with the first parameter
varying fastest; and then the iteration is at its end. -/
theorem iterate_one_node {root : TestNode}
    (hvals : ∀ p a, root.at? p = some a → ∀ q ∈ a.data.parameters, q.values ≠ [])
    (n : root.Node) :
    ∃ t items, root.at? n.1 = some t ∧ Yields root [n.1] items ∧
      items = ((TestNode.preorder n.1 t).filter root.testable).flatMap
        (fun p => (combinations (root.parameters p)).map (p, ·)) ∧
      items.Nodup ∧
      ∀ p as, (p, as) ∈ items ↔ (n.1 <:+ p ∧ (root.at? p).isSome) ∧ root.testable p = true ∧
        as.map (·.param) = root.parameters p ∧ ∀ a ∈ as, a.idx < a.param.values.length := by
  obtain ⟨t, ht⟩ := Option.isSome_iff_exists.mp n.2
  obtain ⟨fuel, hfuel⟩ := collect_walk (TestNode.walk_node ht) fun p _ q hq => by
    obtain ⟨r, a, ha, hmem⟩ := exists_node_of_mem_parameters hq
    exact hvals r a ha q hmem
  refine ⟨t, testItems root (TestNode.preorder n.1 t), ht, ⟨fuel, hfuel⟩, rfl,
    nodup_testItems (TestNode.nodup_preorder n.1 t), fun p as => ?_⟩
  rw [mem_testItems, TestNode.mem_preorder ht]

theorem two_values_few (v w : CString) : [v, w].length < 2 ^ 32 :=
  show 2 < 2 ^ 32 by decide

/-- A parameter that is `0` or `1`. -/
def zeroOrOne (name : UInt8) (var : Nat) : Parameter :=
  ⟨.ofBuffer [name], var, [.ofBuffer [48], .ofBuffer [49]], two_values_few _ _⟩

/-- A test with two parameters of two values each, below a node. -/
def twoParameters : TestNode :=
  .mk {} [.mk {
    test := some ⟨.empty, .empty, .returned 0⟩, parameters := [zeroOrOne 97 0, zeroOrOne 98 1] } []]

/-- It is run four times. -/
theorem iterate_one_node_two_parameters :
    ∃ items, Yields twoParameters [[]] items ∧
      items.map (fun i => (i.1, i.2.map (·.idx))) =
        [([0], [0, 0]), ([0], [1, 0]), ([0], [0, 1]), ([0], [1, 1])] := by
  have hvals : ∀ p a, twoParameters.at? p = some a → ∀ q ∈ a.data.parameters, q.values ≠ [] := by
    intro p a ha q hq
    have hp : p ∈ TestNode.preorder [] twoParameters :=
      (TestNode.mem_preorder rfl).mpr ⟨List.nil_suffix, by rw [ha]; rfl⟩
    have hnodes : TestNode.preorder [] twoParameters = [[], [0]] := by decide
    rw [hnodes] at hp
    rcases List.mem_cons.mp hp with rfl | hp
    · cases ha
      cases hq
    · obtain rfl := List.mem_singleton.mp hp
      cases ha
      rcases List.mem_cons.mp hq with rfl | hq
      · exact List.cons_ne_nil _ _
      · obtain rfl := List.mem_singleton.mp hq
        exact List.cons_ne_nil _ _
  obtain ⟨t, items, ht, hyields, hitems, -⟩ := iterate_one_node hvals ⟨[], rfl⟩
  cases ht
  refine ⟨items, hyields, ?_⟩
  rw [hitems]
  decide

end NovaProva
