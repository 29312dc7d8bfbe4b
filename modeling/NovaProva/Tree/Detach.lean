import NovaProva.Tree.MakePath

/-!
# Tree — Detach

`testnode_t::detach_common`: the nodes that all the names have in common and that carry nothing are
cut off, so that the tests are named from the first node where there is a choice.

The loop goes down through nodes that carry nothing and have one child only (`Above`).  Whatever is
cut off is therefore bare, and a list collected from a node up to the root is the same without it.

* `detachCommon`: the descent, the step back up from a single test, and the cut.
* `lineage`: the nodes a test takes its fixtures, parameters and intercepts from.
* `detachCommon_keeps`: nothing that can be observed of a test is lost.
-/

namespace NovaProva

/-! ### The code -/

/-- What ends `detach_common` other than its return. -/
inductive DetachError where
  | null
  | fuel
  | assertion
  deriving DecidableEq

/-- Neither functions nor parameters nor intercepts. -/
def Bare (d : NodeData) (intercepts : List Redirection) : Prop :=
  intercepts = [] ∧ d.parameters = [] ∧ d.before = none ∧ d.test = none ∧ d.after = none

/-- A node without anything of its own, on the heap. -/
def Cell.Bare (cell : Cell) : Prop := NovaProva.Bare cell.data cell.intercepts

/-- `is_elidable`. -/
def isElidable (h : Heap) (cell : Cell) : Except DetachError Bool :=
  if cell.intercepts.length > 0 then .ok false
  else if cell.data.parameters.length > 0 then .ok false
  else if cell.data.before.isSome || cell.data.test.isSome || cell.data.after.isSome then .ok false
  else
    match cell.children with
    | none => .ok true
    | some c =>
      match h[c]? with
      | none => .error .null
      | some child => .ok child.next.isNone

/-- The loop down, in at most `fuel` turns. -/
def descend (h : Heap) : Nat → Nat → Except DetachError Nat
  | 0, _ => .error .fuel
  | fuel + 1, tn =>
    match h[tn]? with
    | none => .error .null
    | some cell =>
      match cell.children with
      | none => .ok tn
      | some c =>
        match isElidable h cell with
        | .error e   => .error e
        | .ok false  => .ok tn
        | .ok true   => descend h fuel c

/-- With exactly one test there is still a parent above it. -/
def cornerCase (tn : Nat) (cell : Cell) : Nat :=
  match cell.children, cell.parent with
  | none, some p => p
  | _, _         => tn

/-- Cutting `tn` off its parent. -/
def cutOff (h : Heap) (tn : Nat) (cell : Cell) : Except DetachError (Heap × Nat) :=
  match cell.parent with
  | none => .ok (h, tn)
  | some p =>
    if cell.next.isSome then .error .assertion
    else .ok ((h.modify p fun c => { c with children := none }).modify tn
      fun c => { c with parent := none }, tn)

/-- `detach_common` on the root. -/
def detachCommon (h : Heap) : Except DetachError (Heap × Nat) :=
  match descend h h.length 0 with
  | .error e => .error e
  | .ok tn =>
    match h[tn]? with
    | none => .error .null
    | some cell =>
      match h[cornerCase tn cell]? with
      | none => .error .null
      | some cell' => cutOff h (cornerCase tn cell) cell'

/-! ### What a test takes from the nodes above it -/

/-- What the nodes of the loop `for (a = this ; a ; a = a->parent_)` carry. -/
def lineage (h : Heap) (c : Nat) : Option (List (NodeData × List Redirection)) :=
  (follow h.parentOf h.length (some c)).map fun as => as.filterMap h.carries

/-- `get_fixtures`. -/
def fixturesAt (h : Heap) (type : FuncType) (c : Nat) : Option (List Func) :=
  (lineage h c).map fun line => getFixtures (line.map Prod.fst) type

/-- `create_assignments`. -/
def assignmentsAt (h : Heap) (c : Nat) : Option (List Assignment) :=
  (lineage h c).map fun line => createAssignments (line.map Prod.fst)

/-- The intercepts `pre_run` installs, in its order. -/
def interceptsAt (h : Heap) (c : Nat) : Option (List Redirection) :=
  (lineage h c).map fun line => line.flatMap Prod.snd

/-- The nodes at and below `a`. -/
inductive Below (h : Heap) (a : Nat) : Nat → Prop where
  | refl : Below h a a
  | child {b c : Nat} {cs : List Nat} (hb : Below h a b) (hcs : Children h b cs) (hc : c ∈ cs) :
      Below h a c

/-! ### The way down -/

/-- `a` is reached from the root through bare nodes with one child. -/
inductive Above (h : Heap) (kids : Nat → List Nat) : Nat → Prop where
  | root : Above h kids 0
  | child {a c : Nat} {cell : Cell} (ha : Above h kids a) (hcell : h[a]? = some cell)
      (hbare : cell.Bare) (hkids : kids a = [c]) : Above h kids c

section Down

variable {h : Heap} {kids : Nat → List Nat} {tn a c : Nat} {cell : Cell}

theorem Above.lt (hg : Good h kids) (ha : Above h kids a) : a < h.length := by
  cases ha with
  | root => exact hg.pos
  | child _ _ _ hkids => exact hg.lt (hkids ▸ List.mem_cons_self)

/-- A node that is elided is bare and has one child. -/
theorem isElidable_spec (hg : Good h kids) (hcell : h[a]? = some cell)
    (hc : cell.children = some c) :
    ∃ b, isElidable h cell = .ok b ∧ (b = true → cell.Bare ∧ kids a = [c]) := by
  have ha := (List.getElem?_eq_some_iff.mp hcell).1
  obtain ⟨start, hstart, hl⟩ := hg.children a ha
  obtain rfl : cell.children = start := by simpa [Heap.childrenOf, hcell] using hstart
  rw [hc] at hl
  obtain ⟨rest, hrest⟩ : ∃ rest, kids a = c :: rest := by
    cases hk : kids a with
    | nil => rw [hk] at hl; cases hl
    | cons x rest =>
      rw [hk] at hl
      obtain rfl : c = x := Option.some.inj hl.head_eq
      exact ⟨rest, rfl⟩
  rw [hrest] at hl
  obtain ⟨next, hnext, htail⟩ := hl.tail
  obtain ⟨child, hchild, rfl⟩ := Option.map_eq_some_iff.mp hnext
  simp only [isElidable, hc, hchild]
  split
  · exact ⟨false, rfl, fun hb => absurd hb (by decide)⟩
  · split
    · exact ⟨false, rfl, fun hb => absurd hb (by decide)⟩
    · split
      · exact ⟨false, rfl, fun hb => absurd hb (by decide)⟩
      next hintercepts hparameters hfuncs =>
        refine ⟨_, rfl, fun hnone => ?_⟩
        rw [Option.isNone_iff_eq_none] at hnone
        rw [hnone] at htail
        simp only [Bool.or_eq_true, not_or, Bool.not_eq_true, Option.isSome_eq_false_iff,
          Option.isNone_iff_eq_none] at hfuncs
        refine ⟨⟨?_, ?_, hfuncs.1.1, hfuncs.1.2, hfuncs.2⟩, ?_⟩
        · simpa using hintercepts
        · simpa using hparameters
        · rw [hrest, htail.unique .nil]

/-- The loop ends at a node that is reached through what can be elided. -/
theorem descend_spec (hg : Good h kids) (ha : Above h kids a) (fuel : Nat)
    (hfuel : h.length ≤ a + fuel) : ∃ tn, descend h fuel a = .ok tn ∧ Above h kids tn := by
  induction fuel generalizing a with
  | zero => exact absurd (ha.lt hg) (by omega)
  | succ fuel ih =>
    obtain ⟨cell, hcell⟩ : ∃ cell, h[a]? = some cell := ⟨_, List.getElem?_eq_getElem (ha.lt hg)⟩
    cases hc : cell.children with
    | none => exact ⟨a, by simp [descend, hcell, hc], ha⟩
    | some c =>
      obtain ⟨b, helide, hspec⟩ := isElidable_spec hg hcell hc
      cases b with
      | false => exact ⟨a, by simp [descend, hcell, hc, helide], ha⟩
      | true =>
        obtain ⟨hbare, hkids⟩ := hspec rfl
        have hlt := (hg.parent a c (hkids ▸ List.mem_cons_self)).1
        obtain ⟨tn, hdescend, htn⟩ := ih (ha.child hcell hbare hkids) (by omega)
        exact ⟨tn, by simp [descend, hcell, hc, helide, hdescend], htn⟩

/-- The parent of a node on the way down. -/
theorem Above.parent (hg : Good h kids) (ha : Above h kids c) {p : Nat}
    (hp : h.parentOf c = some (some p)) :
    Above h kids p ∧ kids p = [c] ∧ ∃ cell, h[p]? = some cell ∧ cell.Bare := by
  cases ha with
  | root => simp [hg.root] at hp
  | @child a _ cell ha hcell hbare hkids =>
    have hparent := (hg.parent a c (hkids ▸ List.mem_cons_self)).2
    obtain rfl : a = p := by simpa [hparent] using hp
    exact ⟨ha, hkids, cell, hcell, hbare⟩

theorem Above.corner (hg : Good h kids) (ha : Above h kids tn) (hcell : h[tn]? = some cell) :
    Above h kids (cornerCase tn cell) := by
  simp only [cornerCase]
  split
  next p hp =>
    exact (ha.parent hg (by simp [Heap.parentOf, hcell, hp])).1
  · exact ha

end Down

/-! ### The cut -/

/-- The heap after `tn` was cut off its parent `p`. -/
def cutHeap (h : Heap) (p tn : Nat) : Heap :=
  (h.modify p fun c => { c with children := none }).modify tn fun c => { c with parent := none }

section Cut

variable {h : Heap} {p tn a b c : Nat}

theorem getElem?_cutHeap (f : Cell → Option Nat) (b : Nat) :
    (cutHeap h p tn)[b]?.map f =
      h[b]?.map fun cell => f (if tn = b then { (if p = b then { cell with children := none }
        else cell) with parent := none } else if p = b then { cell with children := none }
        else cell) := by
  simp only [cutHeap, List.getElem?_modify]
  cases h[b]? with
  | none => rfl
  | some cell => by_cases hp : p = b <;> by_cases ht : tn = b <;> simp [hp, ht]

theorem nextOf_cutHeap (h : Heap) (p tn : Nat) : (cutHeap h p tn).nextOf = h.nextOf := by
  funext b
  simp only [Heap.nextOf, getElem?_cutHeap Cell.next b]
  congr 1
  funext cell
  split <;> split <;> rfl

theorem childrenOf_cutHeap_ne (hb : b ≠ p) : (cutHeap h p tn).childrenOf b = h.childrenOf b := by
  simp only [Heap.childrenOf, getElem?_cutHeap Cell.children b, if_neg (Ne.symm hb)]
  congr 1
  funext cell
  split <;> rfl

theorem childrenOf_cutHeap_self (hp : p < h.length) :
    (cutHeap h p tn).childrenOf p = some none := by
  simp only [Heap.childrenOf, getElem?_cutHeap Cell.children p, List.getElem?_eq_getElem hp,
    Option.map_some]
  split <;> simp

theorem parentOf_cutHeap_ne (hb : b ≠ tn) : (cutHeap h p tn).parentOf b = h.parentOf b := by
  simp only [Heap.parentOf, getElem?_cutHeap Cell.parent b, if_neg (Ne.symm hb)]
  congr 1
  funext cell
  split <;> rfl

theorem parentOf_cutHeap_self (htn : tn < h.length) :
    (cutHeap h p tn).parentOf tn = some none := by
  simp [Heap.parentOf, getElem?_cutHeap Cell.parent tn, List.getElem?_eq_getElem htn]

/-- What is attached to the nodes stays. -/
theorem carries_cutHeap (h : Heap) (p tn : Nat) : (cutHeap h p tn).carries = h.carries := by
  funext b
  simp only [Heap.carries, cutHeap, List.getElem?_modify]
  cases h[b]? with
  | none => rfl
  | some cell => by_cases hp : p = b <;> by_cases ht : tn = b <;> simp [hp, ht]

@[simp] theorem length_cutHeap (h : Heap) (p tn : Nat) : (cutHeap h p tn).length = h.length := by
  simp [cutHeap]

end Cut

/-! ### Nodes below -/

section Below

variable {h : Heap} {kids : Nat → List Nat} {a b c : Nat}

theorem Below.le (hg : Good h kids) (hc : Below h a c) : a ≤ c := by
  induction hc with
  | refl => exact Nat.le_refl _
  | child hb hcs hc ih =>
    obtain rfl := hg.children_eq hcs
    exact Nat.le_trans ih (Nat.le_of_lt (hg.parent _ _ hc).1)

theorem Below.of_mem (hg : Good h kids) (hb : Below h a b) (hc : c ∈ kids b) : Below h a c :=
  hb.child (hg.children b (hg.lt' hc)) hc

/-- Every node is below the root. -/
theorem below_root (hg : Good h kids) (hc : c < h.length) : Below h 0 c := by
  obtain ⟨p, hp⟩ := IsNode.exists_path hg hc
  clear hc
  induction hp with
  | root => exact .refl
  | child _ hcs hc _ ih => exact ih.child hcs hc

/-- The only child of a node has everything below that node below it, but the node. -/
theorem Below.only_child (hg : Good h kids) {d : Nat} (hkids : kids a = [d]) (hc : Below h a c) :
    c = a ∨ Below h d c := by
  induction hc with
  | refl => exact .inl rfl
  | child hb hcs hc ih =>
    obtain rfl := hg.children_eq hcs
    rcases ih with rfl | hb
    · rw [hkids, List.mem_singleton] at hc
      exact .inr (hc ▸ .refl)
    · exact .inr (hb.of_mem hg hc)

/-- What is not below a node on the way down is bare. -/
theorem Above.below_or_bare (hg : Good h kids) {tn : Nat} (htn : Above h kids tn)
    (hc : c < h.length) : Below h tn c ∨ ∃ cell, h[c]? = some cell ∧ cell.Bare := by
  induction htn with
  | root => exact .inl (below_root hg hc)
  | @child a d cell ha hcell hbare hkids ih =>
    rcases ih with hbelow | hbare
    · rcases hbelow.only_child hg hkids with rfl | hbelow
      · exact .inr ⟨cell, hcell, hbare⟩
      · exact .inl hbelow
    · exact .inr hbare

/-- Nodes below are still below once `tn` was cut off a node above them. -/
theorem Below.cutHeap (hg : Good h kids) {p tn : Nat} (hp : p < a) (hc : Below h a c) :
    Below (NovaProva.cutHeap h p tn) a c := by
  induction hc with
  | refl => exact .refl
  | @child b c cs hb hcs hc ih =>
    have hbp : b ≠ p := Nat.ne_of_gt (Nat.lt_of_lt_of_le hp (hb.le hg))
    refine ih.child ?_ hc
    rw [Children, childrenOf_cutHeap_ne hbp, nextOf_cutHeap]
    exact hcs

/-- A node without children has nothing below it. -/
theorem Below.eq_of_childless (hb : h.childrenOf a = some none) (hc : Below h a c) : c = a := by
  induction hc with
  | refl => rfl
  | child _ hcs hc ih =>
    subst ih
    obtain ⟨start, hstart, hl⟩ := hcs
    rw [hb] at hstart
    obtain rfl := Option.some.inj hstart
    cases hl
    exact absurd hc List.not_mem_nil

end Below

/-! ### Lines of ancestors -/

section Lineage

variable {h : Heap} {kids : Nat → List Nat} {a c : Nat}

/-- From every node the parents lead to the root. -/
theorem exists_parents (hg : Good h kids) (hc : c < h.length) :
    ∃ as, Links h.parentOf (some c) as ∧ as.length ≤ c + 1 := by
  induction c using Nat.strong_induction_on with
  | h c ih =>
    rcases Nat.eq_zero_or_pos c with rfl | hpos
    · exact ⟨[0], .cons hg.root .nil, Nat.le_refl _⟩
    · obtain ⟨a, ha⟩ := hg.inner c hpos hc
      obtain ⟨hlt, hparent⟩ := hg.parent a c ha
      obtain ⟨as, hl, hlen⟩ := ih a hlt (hg.lt' ha)
      exact ⟨c :: as, .cons hparent hl, Nat.succ_le_succ (Nat.le_trans hlen hlt)⟩

theorem lineage_eq {as : List Nat} (hl : Links h.parentOf (some c) as)
    (hlen : as.length ≤ h.length) : lineage h c = some (as.filterMap h.carries) := by
  simp [lineage, hl.follow_eq hlen]

/-- Nothing is collected from bare nodes. -/
theorem collected_of_bare (line : List (NodeData × List Redirection))
    {bare : List (NodeData × List Redirection)}
    (hbare : ∀ x ∈ bare, Bare x.1 x.2) :
    getFixtures ((line ++ bare).map Prod.fst) .before = getFixtures (line.map Prod.fst) .before ∧
    getFixtures ((line ++ bare).map Prod.fst) .after = getFixtures (line.map Prod.fst) .after ∧
    createAssignments ((line ++ bare).map Prod.fst) = createAssignments (line.map Prod.fst) ∧
    (line ++ bare).flatMap Prod.snd = line.flatMap Prod.snd := by
  have hbefore : (bare.map Prod.fst).reverse.filterMap NodeData.before = [] := by
    simp only [List.filterMap_eq_nil_iff, List.mem_reverse, List.mem_map]
    rintro d ⟨x, hx, rfl⟩
    exact (hbare x hx).2.2.1
  have hafter : (bare.map Prod.fst).filterMap NodeData.after = [] := by
    simp only [List.filterMap_eq_nil_iff, List.mem_map]
    rintro d ⟨x, hx, rfl⟩
    exact (hbare x hx).2.2.2.2
  have hparameters : createAssignments (bare.map Prod.fst) = [] := by
    simp only [createAssignments, List.flatMap_eq_nil_iff, List.mem_map, List.map_eq_nil_iff]
    rintro d ⟨x, hx, rfl⟩
    exact (hbare x hx).2.1
  have hintercepts : bare.flatMap Prod.snd = [] := by
    simp only [List.flatMap_eq_nil_iff]
    exact fun x hx => (hbare x hx).1
  refine ⟨?_, ?_, ?_, ?_⟩
  · rw [getFixtures_before, getFixtures_before, List.map_append, List.reverse_append,
      List.filterMap_append, hbefore, List.nil_append]
  · rw [getFixtures_after, getFixtures_after, List.map_append, List.filterMap_append, hafter,
      List.append_nil]
  · rw [List.map_append, createAssignments, List.flatMap_append]
    exact (congrArg _ hparameters).trans (List.append_nil _)
  · rw [List.flatMap_append, hintercepts, List.append_nil]

/-- A node on the way down has only bare nodes above it. -/
theorem Above.parents_bare (hg : Good h kids) (ha : Above h kids a) :
    ∃ bs, Links h.parentOf (some a) (a :: bs) ∧
      ∀ b ∈ bs, ∃ cell, h[b]? = some cell ∧ cell.Bare := by
  induction ha with
  | root => exact ⟨[], .cons hg.root .nil, fun _ hb => absurd hb List.not_mem_nil⟩
  | @child a c cell ha hcell hbare hkids ih =>
    obtain ⟨bs, hl, hbs⟩ := ih
    have hparent := (hg.parent a c (hkids ▸ List.mem_cons_self)).2
    refine ⟨a :: bs, .cons hparent hl, fun b hb => ?_⟩
    rcases List.mem_cons.mp hb with rfl | hb
    · exact ⟨cell, hcell, hbare⟩
    · exact hbs b hb

/-- The parents of a node below `tn`, with those that the cut takes away at the end. -/
theorem Below.parents (hg : Good h kids) {p tn : Nat} (htn : tn < h.length) {bs : List Nat}
    (hl : Links h.parentOf (some tn) (tn :: bs)) (hc : Below h tn c) :
    ∃ as, Links (NovaProva.cutHeap h p tn).parentOf (some c) as ∧
      Links h.parentOf (some c) (as ++ bs) := by
  induction hc with
  | refl => exact ⟨[tn], .cons (parentOf_cutHeap_self htn) .nil, hl⟩
  | @child b c cs hb hcs hc ih =>
    obtain rfl := hg.children_eq hcs
    obtain ⟨as, hcut, hfull⟩ := ih
    obtain ⟨hlt, hparent⟩ := hg.parent b c hc
    have hne : c ≠ tn := Nat.ne_of_gt (Nat.lt_of_le_of_lt (hb.le hg) hlt)
    exact ⟨c :: as, .cons ((parentOf_cutHeap_ne hne).trans hparent) hcut, .cons hparent hfull⟩

end Lineage

/-! ### Detaching -/

/-- What is the same of a node before and after. -/
structure Collects (h h' : Heap) (c : Nat) : Prop where
  exists_lineage : ∃ line, lineage h c = some line
  before : fixturesAt h' .before c = fixturesAt h .before c
  after : fixturesAt h' .after c = fixturesAt h .after c
  assignments : assignmentsAt h' c = assignmentsAt h c
  intercepts : interceptsAt h' c = interceptsAt h c

theorem collects_of_bare {h h' : Heap} {c : Nat} {line bare : List (NodeData × List Redirection)}
    (hnew : lineage h' c = some line) (hold : lineage h c = some (line ++ bare))
    (hbare : ∀ x ∈ bare, Bare x.1 x.2) : Collects h h' c := by
  obtain ⟨hbefore, hafter, hassign, hintercepts⟩ := collected_of_bare line hbare
  refine ⟨⟨_, hold⟩, ?_, ?_, ?_, ?_⟩
  · simp only [fixturesAt, hnew, hold, Option.map_some, hbefore]
  · simp only [fixturesAt, hnew, hold, Option.map_some, hafter]
  · simp only [assignmentsAt, hnew, hold, Option.map_some, hassign]
  · simp only [interceptsAt, hnew, hold, Option.map_some, hintercepts]

/-- What `detach_common` returns. -/
structure Detached (h h' : Heap) (tn : Nat) : Prop where
  carriers : ∀ c cell, h[c]? = some cell → ¬ cell.Bare → Below h' tn c
  root : h'.parentOf tn = some none
  cut : ∀ p, h.parentOf tn = some (some p) → ¬ Below h' p tn
  tests : ∀ c cell, h[c]? = some cell → cell.data.test.isSome → Collects h h' c

/-- A node below the one that is cut off collects what it did before. -/
theorem collects_cutHeap {h : Heap} {kids : Nat → List Nat} {p tn c : Nat} (hg : Good h kids)
    (htn : Above h kids tn) (hc : Below h tn c) (hlt : c < h.length) :
    Collects h (cutHeap h p tn) c := by
  obtain ⟨bs, hl, hbs⟩ := htn.parents_bare hg
  obtain ⟨as, hcut, hfull⟩ := hc.parents hg (p := p) (htn.lt hg) hl
  obtain ⟨cs, hcs, hlen⟩ := exists_parents hg hlt
  obtain rfl := hcs.unique hfull
  rw [List.length_append] at hlen
  have hold := lineage_eq hfull (by rw [List.length_append]; omega)
  have hnew := lineage_eq hcut (by rw [length_cutHeap]; omega)
  rw [carries_cutHeap] at hnew
  rw [List.filterMap_append] at hold
  refine collects_of_bare hnew hold fun x hx => ?_
  obtain ⟨b, hb, hcarries⟩ := List.mem_filterMap.mp hx
  obtain ⟨cell, hcell, hbare⟩ := hbs b hb
  obtain rfl : (cell.data, cell.intercepts) = x := by simpa [Heap.carries, hcell] using hcarries
  exact hbare

/-- What the code comes to: the root itself, or a node cut off its parent, of which it is the only
child. -/
theorem detachCommon_cases {h : Heap} {kids : Nat → List Nat} (hg : Good h kids) :
    ∃ tn, Above h kids tn ∧
      ((h.parentOf tn = some none ∧ detachCommon h = .ok (h, tn)) ∨
        ∃ p, kids p = [tn] ∧ detachCommon h = .ok (cutHeap h p tn, tn)) := by
  obtain ⟨tn₀, hdescend, habove₀⟩ := descend_spec hg .root h.length (by omega)
  obtain ⟨cell₀, hcell₀⟩ : ∃ cell, h[tn₀]? = some cell :=
    ⟨_, List.getElem?_eq_getElem (habove₀.lt hg)⟩
  have htn := habove₀.corner hg hcell₀
  obtain ⟨cell, hcell⟩ : ∃ cell, h[cornerCase tn₀ cell₀]? = some cell :=
    ⟨_, List.getElem?_eq_getElem (htn.lt hg)⟩
  have hcode : detachCommon h = cutOff h (cornerCase tn₀ cell₀) cell := by
    simp only [detachCommon, hdescend, hcell₀, hcell]
  refine ⟨cornerCase tn₀ cell₀, htn, ?_⟩
  cases hparent : cell.parent with
  | none => exact .inl ⟨by simp [Heap.parentOf, hcell, hparent], by simp [hcode, cutOff, hparent]⟩
  | some p =>
    have hp : h.parentOf (cornerCase tn₀ cell₀) = some (some p) := by
      simp [Heap.parentOf, hcell, hparent]
    obtain ⟨-, hkids, -⟩ := htn.parent hg hp
    have hnext : cell.next = none := by
      obtain ⟨start, -, hl⟩ := hg.children p (hg.lt' (hkids ▸ List.mem_cons_self))
      rw [hkids] at hl
      obtain ⟨next, hnext, htail⟩ := hl.tail
      cases htail
      simpa [Heap.nextOf, hcell] using hnext
    exact .inr ⟨p, hkids, by simp [hcode, cutOff, hparent, hnext, cutHeap]⟩

/-- **Nothing is lost.**  Whatever tree the calls have built, its common part is cut off without
the assertion firing, every node that carries something is below the node that is returned, which
the node it was cut off does not reach, and every test collects the fixtures, parameters and
intercepts it did. -/
theorem detachCommon_keeps {h : Heap} {calls : List (List CString × Nat)} (hb : Built h calls) :
    ∃ h' tn, detachCommon h = .ok (h', tn) ∧ Detached h h' tn := by
  obtain ⟨kids, hg, -, -⟩ := hb.good
  obtain ⟨tn, htn, hcases⟩ := detachCommon_cases hg
  have hbare : ∀ c cell, h[c]? = some cell → ¬ cell.Bare → Below h tn c := by
    intro c cell hc hcarries
    refine (htn.below_or_bare hg (List.getElem?_eq_some_iff.mp hc).1).resolve_right ?_
    rintro ⟨cell', hcell', hbare⟩
    rw [hc] at hcell'
    exact hcarries (Option.some.inj hcell' ▸ hbare)
  have htest : ∀ c cell, h[c]? = some cell → cell.data.test.isSome → Below h tn c := by
    intro c cell hc htest
    refine hbare c cell hc fun hb => ?_
    simp [hb.2.2.2.1] at htest
  rcases hcases with ⟨hroot, hcode⟩ | ⟨p, hkids, hcode⟩
  · refine ⟨h, tn, hcode, hbare, hroot, ?_, ?_⟩
    · intro p hp
      simp [hroot] at hp
    · intro c cell hc _
      have hlt := (List.getElem?_eq_some_iff.mp hc).1
      obtain ⟨as, hl, hlen⟩ := exists_parents hg hlt
      exact ⟨⟨_, lineage_eq hl (by omega)⟩, rfl, rfl, rfl, rfl⟩
  · have hmem : tn ∈ kids p := hkids ▸ List.mem_cons_self
    obtain ⟨hlt, hp⟩ := hg.parent p tn hmem
    refine ⟨cutHeap h p tn, tn, hcode, ?_, parentOf_cutHeap_self (htn.lt hg), ?_, ?_⟩
    · exact fun c cell hc hcarries => (hbare c cell hc hcarries).cutHeap hg hlt
    · intro q hq hbelow
      obtain rfl : p = q := by simpa [hp] using hq
      have heq := hbelow.eq_of_childless (childrenOf_cutHeap_self (hg.lt' hmem))
      omega
    · exact fun c cell hc ht => collects_cutHeap hg htn (htest c cell hc ht)
        (List.getElem?_eq_some_iff.mp hc).1

/-- The nodes of `/a/b` with one test. -/
def oneTest : Heap :=
  [{ children := some 1 },
    { parent := some 0, children := some 2, data := { name := some (nodeName "a") } },
    { parent := some 1, data := { name := some (nodeName "b"), test := some emptyTest } }]

theorem detachCommon_keeps_oneTest :
    ∃ h' tn, detachCommon oneTest = .ok (h', tn) ∧ Detached oneTest h' tn := by
  have hpath := Built.root.makePath (nodeName "/a/b") (by decide) rfl
  exact detachCommon_keeps (hpath.attach (a := 2) (by decide) (.function .test emptyTest))

end NovaProva
