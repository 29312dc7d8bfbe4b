import NovaProva.Tree.Planned

/-!
# Tree — Deletion

`~testmanager_t` and `~testnode_t`, which `np_done` comes to.  Discovery leaves two trees behind,
the one that is planned and what `detach_common` has cut off above it, and a node deletes its
children one after the other, each after its `next_` was read.

* `deleteNode`, `deleteChildren`: the destructor; a node that was deleted is not to be touched.
* `Owned`: the nodes that go with a list of siblings, in the order in which they are deleted.
* `Forest`: nodes in memory none of which has two parents; `TwoTrees`: two trees, or one.
* `testmanager_frees_nodes`: every node of an instance is deleted, and once.
-/

namespace NovaProva

/-! ### The code -/

/-- The nodes, and those of them that were deleted. -/
structure Memory where
  heap : Heap
  freed : List Nat := []

/-- What a deletion can run into. -/
inductive DeleteFault where
  | null
  /-- a node is used after it was deleted -/
  | freed
  | fuel
  deriving DecidableEq

namespace Memory

/-- What is read through a pointer to a node. -/
def read (m : Memory) (a : Nat) : Except DeleteFault Cell :=
  if a ∈ m.freed then .error .freed
  else
    match m.heap[a]? with
    | none      => .error .null
    | some cell => .ok cell

/-- `children_ = child->next_`. -/
def setChildren (m : Memory) (a : Nat) (next : Option Nat) : Memory :=
  { m with heap := m.heap.modify a fun cell => { cell with children := next } }

/-- `operator delete`. -/
def free (m : Memory) (a : Nat) : Except DeleteFault Memory :=
  if a ∈ m.freed then .error .freed else .ok { m with freed := m.freed ++ [a] }

end Memory

mutual

/-- `delete` of a node: `~testnode_t`, and its memory. -/
def deleteNode : Nat → Memory → Nat → Except DeleteFault Memory
  | 0, _, _        => .error .fuel
  | fuel + 1, m, a =>
    match deleteChildren fuel m a with
    | .error e => .error e
    | .ok m'   => m'.free a

/-- The loop of `~testnode_t`, on the node `a`. -/
def deleteChildren : Nat → Memory → Nat → Except DeleteFault Memory
  | 0, _, _        => .error .fuel
  | fuel + 1, m, a =>
    match m.read a with
    | .error e => .error e
    | .ok cell =>
      match cell.children with
      | none       => .ok m
      | some child =>
        match m.read child with
        | .error e => .error e
        | .ok c    =>
          match deleteNode fuel (m.setChildren a c.next) child with
          | .error e => .error e
          | .ok m'   => deleteChildren fuel m' a

end

/-- `~testmanager_t`, with `root_` and `common_`: the nodes it deletes. -/
def deleteTrees (fuel : Nat) (h : Heap) (root common : Nat) : Except DeleteFault Memory :=
  match deleteNode fuel { heap := h } root with
  | .error e => .error e
  | .ok m    => if common ≠ root then deleteNode fuel m common else .ok m

/-! ### What a node owns -/

/-- `as` are the siblings from `start` on with everything below them, as they are deleted. -/
inductive Owned (h : Heap) : Option Nat → List Nat → Prop where
  | nil : Owned h none []
  | cons {c : Nat} {down across : Option Nat} {as bs : List Nat}
      (hchildren : h.childrenOf c = some down) (hnext : h.nextOf c = some across)
      (hdown : Owned h down as) (hacross : Owned h across bs) :
      Owned h (some c) (as ++ c :: bs)

/-- The links of these nodes are as in `h`. -/
def SameOn (h : Heap) (m : Memory) (as : List Nat) : Prop :=
  ∀ x ∈ as, m.heap.childrenOf x = h.childrenOf x ∧ m.heap.nextOf x = h.nextOf x

/-- `m'` is `m` after `as` were deleted, which are children of `a` and below. -/
structure Deleted (m m' : Memory) (a : Nat) (as : List Nat) : Prop where
  freed : m'.freed = m.freed ++ as
  childless : m'.heap.childrenOf a = some none
  other : ∀ x, x ≠ a → x ∉ as →
    m'.heap.childrenOf x = m.heap.childrenOf x ∧ m'.heap.nextOf x = m.heap.nextOf x
  next : m'.heap.nextOf a = m.heap.nextOf a

section Delete

variable {h : Heap} {m m' : Memory} {a c : Nat} {start : Option Nat} {as : List Nat}

theorem Memory.read_eq (ha : a ∉ m.freed) (hchildren : m.heap.childrenOf a = some start) :
    ∃ cell, m.read a = .ok cell ∧ cell.children = start := by
  obtain ⟨cell, hcell, rfl⟩ := Option.map_eq_some_iff.mp hchildren
  exact ⟨cell, by simp [Memory.read, ha, hcell], rfl⟩

theorem Memory.read_next (ha : a ∉ m.freed) (hnext : m.heap.nextOf a = some start) :
    ∃ cell, m.read a = .ok cell ∧ cell.next = start := by
  obtain ⟨cell, hcell, rfl⟩ := Option.map_eq_some_iff.mp hnext
  exact ⟨cell, by simp [Memory.read, ha, hcell], rfl⟩

theorem Memory.childrenOf_setChildren_self (ha : m.heap.childrenOf a = some start)
    (next : Option Nat) : (m.setChildren a next).heap.childrenOf a = some next := by
  obtain ⟨cell, hcell, -⟩ := Option.map_eq_some_iff.mp ha
  simp [Memory.setChildren, Heap.childrenOf, hcell]

theorem Memory.childrenOf_setChildren_ne (hne : c ≠ a) (next : Option Nat) :
    (m.setChildren a next).heap.childrenOf c = m.heap.childrenOf c := by
  simp [Memory.setChildren, Heap.childrenOf, Ne.symm hne]

theorem Memory.nextOf_setChildren (next : Option Nat) (c : Nat) :
    (m.setChildren a next).heap.nextOf c = m.heap.nextOf c := by
  simp only [Memory.setChildren, Heap.nextOf, List.getElem?_modify]
  cases m.heap[c]? with
  | none => rfl
  | some cell => by_cases hc : a = c <;> simp [hc]

/-- One turn of the loop. -/
theorem deleteChildren_step {cell cell' : Cell} {fuel : Nat} (hread : m.read a = .ok cell)
    (hcell : cell.children = some c) (hread' : m.read c = .ok cell')
    (hdelete : deleteChildren fuel (m.setChildren a cell'.next) c = .ok m')
    (hlive : c ∉ m'.freed) :
    deleteChildren (fuel + 2) m a =
      deleteChildren (fuel + 1) { m' with freed := m'.freed ++ [c] } a := by
  rw [deleteChildren, hread]
  simp only [hcell, hread', deleteNode, hdelete, Memory.free, if_neg hlive]

/-- The nodes of a list of siblings are apart. -/
theorem apart_of_nodup {bs : List Nat} (h : (a :: (as ++ c :: bs)).Nodup) :
    (c :: as).Nodup ∧ (a :: bs).Nodup ∧ a ∉ c :: as ∧ ∀ x ∈ a :: bs, x ≠ c ∧ x ∉ as := by
  obtain ⟨hnot, hnodup⟩ := List.nodup_cons.mp h
  obtain ⟨hnodupAs, hnodupBs, hapart⟩ := List.nodup_append.mp hnodup
  obtain ⟨hcBs, hnodupBs⟩ := List.nodup_cons.mp hnodupBs
  simp only [List.mem_append, List.mem_cons, not_or] at hnot
  obtain ⟨haAs, hac, haBs⟩ := hnot
  refine ⟨List.nodup_cons.mpr ⟨fun hmem => ?_, hnodupAs⟩, List.nodup_cons.mpr ⟨haBs, hnodupBs⟩,
    by simp [hac, haAs], fun x hx => ?_⟩
  · exact hapart c hmem c List.mem_cons_self rfl
  · rcases List.mem_cons.mp hx with rfl | hx
    · exact ⟨hac, haAs⟩
    · exact ⟨fun heq => hcBs (heq ▸ hx),
        fun hmem => hapart x hmem x (List.mem_cons_of_mem _ hx) rfl⟩

/-- The links of a node that has nothing to do with the child that was deleted. -/
theorem Deleted.links {next : Option Nat} (hd : Deleted (m.setChildren a next) m' c as) {x : Nat}
    (hxa : x ≠ a) (hx : x ≠ c ∧ x ∉ as) :
    m'.heap.childrenOf x = m.heap.childrenOf x ∧ m'.heap.nextOf x = m.heap.nextOf x := by
  obtain ⟨hchildren, hnext⟩ := hd.other x hx.1 hx.2
  rw [hchildren, hnext, Memory.childrenOf_setChildren_ne hxa, Memory.nextOf_setChildren]
  exact ⟨rfl, rfl⟩

/-- A child with what is below it, and then the children behind it. -/
theorem Deleted.sibling {next : Option Nat} {m'' : Memory} {bs : List Nat}
    (hd : Deleted (m.setChildren a next) m' c as)
    (hd' : Deleted { m' with freed := m'.freed ++ [c] } m'' a bs) (ha : a ∉ c :: as) :
    Deleted m m'' a (as ++ c :: bs) := by
  obtain ⟨hac, haAs⟩ := not_or.mp (mt List.mem_cons.mpr ha)
  refine ⟨?_, hd'.childless, fun x hxa hx => ?_, ?_⟩
  · rw [hd'.freed, hd.freed]
    simp [Memory.setChildren]
  · simp only [List.mem_append, List.mem_cons, not_or] at hx
    obtain ⟨hxAs, hxc, hxBs⟩ := hx
    obtain ⟨hchildren, hnext⟩ := hd'.other x hxa hxBs
    obtain ⟨hchildren', hnext'⟩ := hd.links hxa ⟨hxc, hxAs⟩
    exact ⟨hchildren.trans hchildren', hnext.trans hnext'⟩
  · rw [hd'.next, (hd.other a hac haAs).2, Memory.nextOf_setChildren]

/-- **The loop deletes what the node owns**, and touches nothing else. -/
theorem deleteChildren_owned (ho : Owned h start as) (hm : SameOn h m as)
    (ha : m.heap.childrenOf a = some start) (hnodup : (a :: as).Nodup)
    (hlive : ∀ x ∈ a :: as, x ∉ m.freed) {fuel : Nat} (hfuel : 2 * as.length < fuel) :
    ∃ m', deleteChildren fuel m a = .ok m' ∧ Deleted m m' a as := by
  induction ho generalizing m a fuel with
  | nil =>
      obtain ⟨fuel, rfl⟩ := Nat.exists_eq_add_one_of_ne_zero (Nat.ne_zero_of_lt hfuel)
      obtain ⟨cell, hread, hcell⟩ := Memory.read_eq (hlive a List.mem_cons_self) ha
      exact ⟨m, by simp [deleteChildren, hread, hcell], (List.append_nil _).symm, ha,
        fun _ _ _ => ⟨rfl, rfl⟩, rfl⟩
  | @cons c down across as bs hchildren hnext hdown hacross ihdown ihacross =>
      simp only [List.length_append, List.length_cons] at hfuel
      obtain ⟨fuel, rfl⟩ : ∃ k, fuel = k + 2 := ⟨fuel - 2, by omega⟩
      obtain ⟨hnodupAs, hnodupBs, haAs, hapart⟩ := apart_of_nodup hnodup
      obtain ⟨hac, haAs'⟩ := not_or.mp (mt List.mem_cons.mpr haAs)
      have hsame := hm c (by simp)
      obtain ⟨cell, hread, hcell⟩ := Memory.read_eq (hlive a List.mem_cons_self) ha
      obtain ⟨cell', hread', hcell'⟩ := Memory.read_next (hlive c (by simp))
        (hsame.2.trans hnext)
      -- the first child with what is below it
      have hmAs : SameOn h (m.setChildren a across) as := by
        intro x hx
        have hxa : x ≠ a := fun heq => haAs' (heq ▸ hx)
        rw [Memory.childrenOf_setChildren_ne hxa, Memory.nextOf_setChildren]
        exact hm x (List.mem_append_left _ hx)
      have hc : (m.setChildren a across).heap.childrenOf c = some down := by
        rw [Memory.childrenOf_setChildren_ne (Ne.symm hac)]
        exact hsame.1.trans hchildren
      have hliveAs : ∀ x ∈ c :: as, x ∉ (m.setChildren a across).freed := by
        intro x hx
        refine hlive x (List.mem_cons_of_mem _ ?_)
        rcases List.mem_cons.mp hx with rfl | hx <;> simp [*]
      obtain ⟨m₁, hdelete, hd⟩ := ihdown hmAs hc hnodupAs hliveAs
        (show 2 * as.length < fuel by omega)
      -- and the children behind it
      have hfreed : ∀ x, x ∉ m.freed → x ∉ as → x ∉ m₁.freed := by
        intro x hx hxAs
        rw [hd.freed, List.mem_append, not_or]
        exact ⟨hx, hxAs⟩
      have hmBs : SameOn h { m₁ with freed := m₁.freed ++ [c] } bs := by
        intro x hx
        have hxa : x ≠ a := fun heq => (List.nodup_cons.mp hnodupBs).1 (heq ▸ hx)
        obtain ⟨hchildren, hnext⟩ := hd.links hxa (hapart x (List.mem_cons_of_mem _ hx))
        obtain ⟨hchildren', hnext'⟩ := hm x (by simp [hx])
        exact ⟨hchildren.trans hchildren', hnext.trans hnext'⟩
      have haBs : m₁.heap.childrenOf a = some across :=
        (hd.other a hac haAs').1.trans (Memory.childrenOf_setChildren_self ha across)
      have hliveBs : ∀ x ∈ a :: bs, x ∉ m₁.freed ++ [c] := by
        intro x hx
        obtain ⟨hxc, hxAs⟩ := hapart x hx
        rw [List.mem_append, List.mem_singleton, not_or]
        refine ⟨hfreed x (hlive x ?_) hxAs, hxc⟩
        rcases List.mem_cons.mp hx with rfl | hx <;> simp [*]
      obtain ⟨m₂, hrest, hd'⟩ := ihacross hmBs haBs hnodupBs hliveBs
        (show 2 * bs.length < fuel + 1 by omega)
      refine ⟨m₂, ?_, hd.sibling hd' haAs⟩
      rw [deleteChildren_step hread hcell hread' (by rw [hcell', hdelete])
        (hfreed c (hlive c (by simp)) (List.nodup_cons.mp hnodupAs).1), hrest]

/-- `delete` of a node. -/
theorem deleteNode_owned (ho : Owned h start as) (hm : SameOn h m as)
    (ha : m.heap.childrenOf a = some start) (hnodup : (a :: as).Nodup)
    (hlive : ∀ x ∈ a :: as, x ∉ m.freed) {fuel : Nat} (hfuel : 2 * as.length + 1 < fuel) :
    ∃ m', deleteNode fuel m a = .ok m' ∧ m'.freed = m.freed ++ (as ++ [a]) ∧
      ∀ x, x ≠ a → x ∉ as →
        m'.heap.childrenOf x = m.heap.childrenOf x ∧ m'.heap.nextOf x = m.heap.nextOf x := by
  obtain ⟨fuel, rfl⟩ := Nat.exists_eq_add_one_of_ne_zero (Nat.ne_zero_of_lt hfuel)
  obtain ⟨m', hdelete, hd⟩ := deleteChildren_owned ho hm ha hnodup hlive
    (show 2 * as.length < fuel by omega)
  have hnot : a ∉ m'.freed := by
    rw [hd.freed, List.mem_append, not_or]
    exact ⟨hlive a List.mem_cons_self, (List.nodup_cons.mp hnodup).1⟩
  refine ⟨{ m' with freed := m'.freed ++ [a] }, ?_, ?_, hd.other⟩
  · simp only [deleteNode, hdelete, Memory.free, if_neg hnot]
  · rw [hd.freed, List.append_assoc]

end Delete

/-! ### Forests -/

/-- Nodes in memory with their children, none of which has two parents. -/
structure Forest (h : Heap) (kids : Nat → List Nat) : Prop where
  children : ∀ a < h.length, Children h a (kids a)
  lt : ∀ a, ∀ c ∈ kids a, a < c ∧ c < h.length
  parent_unique : ∀ a b, ∀ c ∈ kids a, c ∈ kids b → a = b
  nodup : ∀ a, (kids a).Nodup

section Forest

variable {h h' : Heap} {kids : Nat → List Nat} {a b c d p tn x : Nat}

theorem Good.forest (hg : Good h kids) : Forest h kids where
  children := hg.children
  lt a c hc := ⟨(hg.parent a c hc).1, hg.lt hc⟩
  parent_unique _ _ _ ha hb := hg.parent_unique ha hb
  nodup := hg.nodup

theorem SameLinks.forest (hs : SameLinks h h') (hf : Forest h kids) : Forest h' kids where
  children a ha := hs.children (hf.children a (hs.length_eq ▸ ha))
  lt a c hc := hs.length_eq ▸ hf.lt a c hc
  parent_unique := hf.parent_unique
  nodup := hf.nodup

/-- The children once those of `p` were cut off. -/
def cutKids (kids : Nat → List Nat) (p : Nat) : Nat → List Nat := Function.update kids p []

theorem cutKids_ne (hb : b ≠ p) : cutKids kids p b = kids b := Function.update_of_ne hb ..

theorem cutKids_self : cutKids kids p p = [] := Function.update_self ..

theorem mem_cutKids : c ∈ cutKids kids p b ↔ b ≠ p ∧ c ∈ kids b := by
  by_cases hb : b = p
  · simp [hb, cutKids_self]
  · simp [hb, cutKids_ne]

theorem Forest.cutHeap (hf : Forest h kids) (hp : p < h.length) :
    Forest (NovaProva.cutHeap h p tn) (cutKids kids p) where
  children b hb := by
    rw [length_cutHeap] at hb
    rcases eq_or_ne b p with rfl | hne
    · rw [cutKids_self]
      exact ⟨none, childrenOf_cutHeap_self hp, .nil⟩
    · rw [cutKids_ne hne, Children, childrenOf_cutHeap_ne hne, nextOf_cutHeap]
      exact hf.children b hb
  lt a c hc := by
    rw [length_cutHeap]
    exact hf.lt a c (mem_cutKids.mp hc).2
  parent_unique a b c ha hb := hf.parent_unique a b c (mem_cutKids.mp ha).2 (mem_cutKids.mp hb).2
  nodup a := by
    rcases eq_or_ne a p with rfl | hne
    · simp [cutKids_self]
    · rw [cutKids_ne hne]
      exact hf.nodup a

namespace Forest

theorem children_eq (hf : Forest h kids) {cs : List Nat} (hcs : Children h a cs) : cs = kids a := by
  obtain ⟨cell, hcell, -⟩ := Option.map_eq_some_iff.mp hcs.choose_spec.1
  exact hcs.unique (hf.children a (List.getElem?_eq_some_iff.mp hcell).1)

theorem below_of_mem (hf : Forest h kids) (hb : Below h a b) (hc : c ∈ kids b) : Below h a c :=
  hb.child (hf.children b (Nat.lt_trans (hf.lt b c hc).1 (hf.lt b c hc).2)) hc

theorem below_le (hf : Forest h kids) (hc : Below h a c) : a ≤ c := by
  induction hc with
  | refl => exact Nat.le_refl _
  | child hb hcs hc ih =>
    obtain rfl := hf.children_eq hcs
    exact Nat.le_trans ih (Nat.le_of_lt (hf.lt _ _ hc).1)

/-- The node itself, or a child of a node below. -/
theorem below_iff (hf : Forest h kids) : Below h a c ↔ c = a ∨ ∃ b, Below h a b ∧ c ∈ kids b := by
  constructor
  · intro hc
    cases hc with
    | refl => exact .inl rfl
    | child hb hcs hc =>
      obtain rfl := hf.children_eq hcs
      exact .inr ⟨_, hb, hc⟩
  · rintro (rfl | ⟨b, hb, hc⟩)
    · exact .refl
    · exact hf.below_of_mem hb hc

/-- Down from the top: the node itself, or below one of its children. -/
theorem below_iff_kids (hf : Forest h kids) :
    Below h a x ↔ x = a ∨ ∃ c ∈ kids a, Below h c x := by
  constructor
  · intro hx
    induction hx with
    | refl => exact .inl rfl
    | @child b x cs hb hcs hx ih =>
      obtain rfl := hf.children_eq hcs
      rcases ih with rfl | ⟨c, hc, hb⟩
      · exact .inr ⟨x, hx, .refl⟩
      · exact .inr ⟨c, hc, hf.below_of_mem hb hx⟩
  · rintro (rfl | ⟨c, hc, hx⟩)
    · exact .refl
    · induction hx with
      | refl => exact hf.below_of_mem .refl hc
      | child _ hcs hx ih => exact ih.child hcs hx

/-- Of two nodes above the same node, one is above the other. -/
theorem below_total (hf : Forest h kids) (hc : Below h c x) (hd : Below h d x) :
    Below h c d ∨ Below h d c := by
  induction hc with
  | refl => exact .inr hd
  | @child b x cs hb hcs hx ih =>
    obtain rfl := hf.children_eq hcs
    rcases hf.below_iff.mp hd with rfl | ⟨b', hb', hx'⟩
    · exact .inl (hb.child hcs hx)
    · obtain rfl := hf.parent_unique b' b x hx' hx
      exact ih hb'

/-- What is below two children of a node is below the same child. -/
theorem sibling_unique (hf : Forest h kids) (hc : c ∈ kids a) (hd : d ∈ kids a)
    (hcx : Below h c x) (hdx : Below h d x) : c = d := by
  have hup : ∀ {c d : Nat}, c ∈ kids a → d ∈ kids a → Below h c d → c = d := by
    intro c d hc hd hbelow
    rcases hf.below_iff.mp hbelow with rfl | ⟨b, hb, hdb⟩
    · rfl
    · obtain rfl := hf.parent_unique b a d hdb hd
      exact absurd (hf.below_le hb) (Nat.not_le_of_lt (hf.lt b c hc).1)
  rcases hf.below_total hcx hdx with hbelow | hbelow
  · exact hup hc hd hbelow
  · exact (hup hd hc hbelow).symm

/-- So do nodes without a parent have nothing below them in common. -/
theorem root_unique (hf : Forest h kids) (hc : ∀ b, c ∉ kids b) (hd : ∀ b, d ∉ kids b)
    (hcx : Below h c x) (hdx : Below h d x) : c = d := by
  rcases hf.below_total hcx hdx with hbelow | hbelow
  · rcases hf.below_iff.mp hbelow with rfl | ⟨b, -, hb⟩
    · rfl
    · exact absurd hb (hd b)
  · rcases hf.below_iff.mp hbelow with rfl | ⟨b, -, hb⟩
    · rfl
    · exact absurd hb (hc b)

end Forest

end Forest

/-! ### What is deleted -/

section Freed

variable {h h' : Heap} {kids : Nat → List Nat} {a p tn x : Nat}

/-- Siblings own what is below them, every node of it once. -/
theorem Forest.exists_owned (hf : Forest h kids) (k : Nat) {cs : List Nat} {start : Option Nat}
    (hcs : ∀ c ∈ cs, c ∈ kids a ∧ h.length ≤ c + k) (hnodup : cs.Nodup)
    (hl : Links h.nextOf start cs) :
    ∃ as, Owned h start as ∧ as.Nodup ∧ ∀ x, x ∈ as ↔ ∃ c ∈ cs, Below h c x := by
  induction k generalizing a cs start with
  | zero =>
      cases hl with
      | nil => exact ⟨[], .nil, .nil, by simp⟩
      | @cons c =>
        obtain ⟨hc, hlen⟩ := hcs c List.mem_cons_self
        exact absurd (hf.lt a c hc).2 (Nat.not_lt_of_le hlen)
  | succ k ih =>
      induction hl with
      | nil => exact ⟨[], .nil, .nil, by simp⟩
      | @cons c across rest hnext hrest ihrest =>
        obtain ⟨hc, hlen⟩ := hcs c List.mem_cons_self
        have hclt := (hf.lt a c hc).2
        obtain ⟨hcRest, hnodupRest⟩ := List.nodup_cons.mp hnodup
        obtain ⟨down, hdown, hlinks⟩ := hf.children c hclt
        obtain ⟨as, has, hnodupAs, hmemAs⟩ := ih
          (fun d hd => ⟨hd, by have := (hf.lt c d hd).1; omega⟩) (hf.nodup c) hlinks
        obtain ⟨bs, hbs, hnodupBs, hmemBs⟩ := ihrest
          (fun d hd => hcs d (List.mem_cons_of_mem _ hd)) hnodupRest
        -- a node below the first sibling is not below another one
        have hapart : ∀ x ∈ bs, ¬ Below h c x := by
          intro x hx hcx
          obtain ⟨d, hd, hdx⟩ := (hmemBs x).mp hx
          have heq := hf.sibling_unique hc (hcs d (List.mem_cons_of_mem _ hd)).1 hcx hdx
          exact hcRest (heq ▸ hd)
        have hbelowAs : ∀ x ∈ as, Below h c x ∧ x ≠ c := by
          intro x hx
          obtain ⟨d, hd, hdx⟩ := (hmemAs x).mp hx
          have hlt := Nat.lt_of_lt_of_le (hf.lt c d hd).1 (hf.below_le hdx)
          exact ⟨hf.below_iff_kids.mpr (.inr ⟨d, hd, hdx⟩), Nat.ne_of_gt hlt⟩
        refine ⟨as ++ c :: bs, .cons hdown hnext has hbs, ?_, fun x => ?_⟩
        · refine List.nodup_append.mpr ⟨hnodupAs, List.nodup_cons.mpr ⟨?_, hnodupBs⟩, ?_⟩
          · exact fun hmem => hapart c hmem .refl
          · intro x hx y hy
            rcases List.mem_cons.mp hy with rfl | hy
            · exact (hbelowAs x hx).2
            · exact fun heq => hapart y hy (heq ▸ (hbelowAs x hx).1)
        · rw [List.mem_append, List.mem_cons, hmemAs, hmemBs]
          simp only [List.mem_cons, exists_eq_or_imp]
          rw [hf.below_iff_kids (a := c), or_assoc, or_left_comm]

/-- A node with what it owns, which is everything below it. -/
theorem Forest.exists_owned_node (hf : Forest h kids) (ha : a < h.length) :
    ∃ start as, h.childrenOf a = some start ∧ Owned h start as ∧ (a :: as).Nodup ∧
      ∀ x, x ∈ a :: as ↔ Below h a x := by
  obtain ⟨start, hstart, hl⟩ := hf.children a ha
  obtain ⟨as, has, hnodup, hmem⟩ := hf.exists_owned h.length
    (fun c hc => ⟨hc, Nat.le_add_left ..⟩) (hf.nodup a) hl
  refine ⟨start, as, hstart, has, List.nodup_cons.mpr ⟨fun hmem' => ?_, hnodup⟩, fun x => ?_⟩
  · obtain ⟨c, hc, hbelow⟩ := (hmem a).mp hmem'
    exact absurd (hf.below_le hbelow) (Nat.not_le_of_lt (hf.lt a c hc).1)
  · rw [List.mem_cons, hmem, hf.below_iff_kids]

/-- Memory after a node was deleted: everything below it is gone, and nothing else is changed. -/
structure Gone (h : Heap) (m m' : Memory) (a : Nat) : Prop where
  exists_freed : ∃ as, m'.freed = m.freed ++ as ∧ as.Nodup ∧ ∀ x, x ∈ as ↔ Below h a x
  other : ∀ x, ¬ Below h a x →
    m'.heap.childrenOf x = m.heap.childrenOf x ∧ m'.heap.nextOf x = m.heap.nextOf x

/-- `delete` of a node of a forest. -/
theorem Forest.deleteNode (hf : Forest h kids) (ha : a < h.length) {m : Memory}
    (hm : ∀ x, Below h a x →
      m.heap.childrenOf x = h.childrenOf x ∧ m.heap.nextOf x = h.nextOf x)
    (hlive : ∀ x, Below h a x → x ∉ m.freed) :
    ∃ m', NovaProva.deleteNode (2 * h.length) m a = .ok m' ∧ Gone h m m' a := by
  obtain ⟨start, as, hstart, has, hnodup, hmem⟩ := hf.exists_owned_node ha
  have hbelow : ∀ x, Below h a x → x < h.length := by
    intro x hx
    rcases hf.below_iff.mp hx with rfl | ⟨b, -, hb⟩
    · exact ha
    · exact (hf.lt b x hb).2
  have hlen : (a :: as).length ≤ h.length := by
    have hsub : a :: as ⊆ List.range h.length :=
      fun x hx => List.mem_range.mpr (hbelow x ((hmem x).mp hx))
    simpa using hnodup.length_le_of_subset hsub
  rw [List.length_cons] at hlen
  obtain ⟨m', hdelete, hfreed, hother⟩ := deleteNode_owned has
    (fun x hx => hm x ((hmem x).mp (List.mem_cons_of_mem _ hx))) ((hm a .refl).1.trans hstart)
    hnodup (fun x hx => hlive x ((hmem x).mp hx)) (show 2 * as.length + 1 < 2 * h.length by omega)
  have hperm : (as ++ [a]).Perm (a :: as) := List.perm_append_comm
  refine ⟨m', hdelete, ⟨as ++ [a], hfreed, hperm.nodup_iff.mpr hnodup, fun x => ?_⟩,
    fun x hx => ?_⟩
  · rw [hperm.mem_iff, hmem]
  · have hnot := mt (hmem x).mp hx
    rw [List.mem_cons, not_or] at hnot
    exact hother x hnot.1 hnot.2

/-- All the nodes of a heap are in two trees, or in one. -/
structure TwoTrees (h : Heap) (kids : Nat → List Nat) (root : Nat) : Prop where
  forest : Forest h kids
  root_lt : root < h.length
  zero : ∀ b, 0 ∉ kids b
  root_top : ∀ b, root ∉ kids b
  covered : ∀ x < h.length, Below h root x ∨ Below h 0 x

/-- Both trees are deleted, and nothing twice. -/
theorem TwoTrees.deleteTrees (ht : TwoTrees h kids a) :
    ∃ m, NovaProva.deleteTrees (2 * h.length) h a 0 = .ok m ∧
      m.freed.Perm (List.range h.length) := by
  have hf := ht.forest
  have hpos : 0 < h.length := Nat.zero_lt_of_lt ht.root_lt
  have hbelow : ∀ {c x : Nat}, c < h.length → Below h c x → x < h.length := by
    intro c x hc hx
    rcases hf.below_iff.mp hx with rfl | ⟨b, -, hb⟩
    · exact hc
    · exact (hf.lt b x hb).2
  obtain ⟨m, hdelete, hgone⟩ := hf.deleteNode ht.root_lt (m := { heap := h })
    (fun _ _ => ⟨rfl, rfl⟩) (fun _ _ => List.not_mem_nil)
  obtain ⟨as, hfreed, hnodup, hmem⟩ := hgone.exists_freed
  rw [List.nil_append] at hfreed
  rcases eq_or_ne 0 a with rfl | hne
  · refine ⟨m, by simp [NovaProva.deleteTrees, hdelete], ?_⟩
    rw [hfreed, List.perm_ext_iff_of_nodup hnodup List.nodup_range]
    intro x
    rw [hmem, List.mem_range]
    exact ⟨hbelow hpos, fun hx => (ht.covered x hx).elim id id⟩
  · -- nothing that was deleted with the root is below the other node
    have hapart : ∀ x, Below h 0 x → ¬ Below h a x :=
      fun x hx ha => hne (hf.root_unique ht.zero ht.root_top hx ha)
    obtain ⟨m', hdelete', hgone'⟩ := hf.deleteNode hpos
      (fun x hx => hgone.other x (hapart x hx))
      (fun x hx hmem' => hapart x hx ((hmem x).mp (hfreed ▸ hmem')))
    obtain ⟨bs, hfreed', hnodup', hmem''⟩ := hgone'.exists_freed
    refine ⟨m', by simp [NovaProva.deleteTrees, hdelete, hne, hdelete'], ?_⟩
    have hboth : (as ++ bs).Nodup := by
      refine List.nodup_append.mpr ⟨hnodup, hnodup', fun x hx y hy heq => ?_⟩
      exact hapart y ((hmem'' y).mp hy) (heq ▸ (hmem x).mp hx)
    rw [hfreed', hfreed, List.perm_ext_iff_of_nodup hboth List.nodup_range]
    intro x
    rw [List.mem_append, hmem, hmem'', List.mem_range]
    exact ⟨fun hx => hx.elim (hbelow ht.root_lt) (hbelow hpos), ht.covered x⟩

/-- A tree that was built, and nothing cut off. -/
theorem Good.oneTree (hg : Good h kids) : TwoTrees h kids 0 where
  forest := hg.forest
  root_lt := hg.pos
  zero b hb := absurd (hg.parent b 0 hb).1 (Nat.not_lt_zero _)
  root_top b hb := absurd (hg.parent b 0 hb).1 (Nat.not_lt_zero _)
  covered _ hx := .inl (below_root hg hx)

/-- A tree that was built, and the only child of `p` cut off. -/
theorem Good.twoTrees (hg : Good h kids) (hp : kids p = [tn]) :
    TwoTrees (cutHeap h p tn) (cutKids kids p) tn := by
  have hmem : tn ∈ kids p := hp ▸ List.mem_cons_self
  have hf : Forest (cutHeap h p tn) (cutKids kids p) := hg.forest.cutHeap (hg.lt' hmem)
  refine ⟨hf, length_cutHeap h p tn ▸ hg.lt hmem, fun b hb => ?_, fun b hb => ?_, fun x hx => ?_⟩
  · exact absurd (hf.lt b 0 hb).1 (Nat.not_lt_zero _)
  · obtain ⟨hne, hb⟩ := mem_cutKids.mp hb
    exact hne (hg.parent_unique hb hmem)
  · rw [length_cutHeap] at hx
    induction x using Nat.strong_induction_on with
    | h x ih =>
      rcases Nat.eq_zero_or_pos x with hzero | hpos
      · exact .inr (hzero ▸ .refl)
      · obtain ⟨a, ha⟩ := hg.inner x hpos hx
        rcases eq_or_ne a p with rfl | hne
        · rw [hp, List.mem_singleton] at ha
          exact .inl (ha ▸ .refl)
        · have hkid : x ∈ cutKids kids p a := mem_cutKids.mpr ⟨hne, ha⟩
          exact (ih a (hg.parent a x ha).1 (hg.lt' ha)).imp
            (hf.below_of_mem · hkid) (hf.below_of_mem · hkid)

/-- What `detach_common` leaves. -/
theorem detachCommon_twoTrees (hg : Good h kids) :
    ∃ h' tn kids', detachCommon h = .ok (h', tn) ∧ TwoTrees h' kids' tn := by
  obtain ⟨tn, htn, hcases⟩ := detachCommon_cases hg
  rcases hcases with ⟨hroot, hcode⟩ | ⟨p, hp, hcode⟩
  · obtain rfl : tn = 0 := by
      by_contra hne
      obtain ⟨a, ha⟩ := hg.inner tn (Nat.pos_of_ne_zero hne) (htn.lt hg)
      simp [(hg.parent a tn ha).2] at hroot
    exact ⟨h, 0, kids, hcode, hg.oneTree⟩
  · exact ⟨_, tn, _, hcode, hg.twoTrees hp⟩

theorem TwoTrees.congr (ht : TwoTrees h kids a) (hs : SameLinks h h') : TwoTrees h' kids a where
  forest := hs.forest ht.forest
  root_lt := hs.length_eq ▸ ht.root_lt
  zero := ht.zero
  root_top := ht.root_top
  covered x hx := (ht.covered x (hs.length_eq ▸ hx)).imp hs.below hs.below

end Freed

/-- **No node is leaked and none is freed twice.**  The destructor of an instance comes to its
end, whatever the program: it never uses a node it has deleted, and every node that discovery has
made is deleted once, those of the plan and those that were cut off above it. -/
theorem testmanager_frees_nodes (units : List (List Reflected)) (b : Builtins) {h : Heap}
    {root : Nat} (hinstance : testmanagerInstance units b = .ok (h, root)) :
    ∃ m, deleteTrees (2 * h.length) h root 0 = .ok m ∧ m.freed.Perm (List.range h.length) := by
  rcases discovered_root.loop units units.flatten 0 with
    ⟨-, h₀, hloop, hd⟩ | ⟨-, hloop⟩
  · obtain ⟨calls, hbuilt, -⟩ := hd.built
    obtain ⟨kids, hg, -, -⟩ := hbuilt.good
    obtain ⟨h', tn, kids', hdetach, ht⟩ := detachCommon_twoTrees hg
    simp only [testmanagerInstance, discoverFunctions, hloop, hdetach] at hinstance
    obtain ⟨rfl, rfl⟩ := Prod.mk.inj (Except.ok.inj hinstance)
    exact (ht.congr (sameLinks_setupBuiltin b h' tn)).deleteTrees
  · rcases hloop with hloop | hloop <;>
      simp [testmanagerInstance, discoverFunctions, hloop] at hinstance

theorem testmanager_frees_nodes_one_file :
    ∃ h root m, testmanagerInstance oneFile ⟨1, 2, 3, 4, 5, 6⟩ = .ok (h, root) ∧
      deleteTrees (2 * h.length) h root 0 = .ok m ∧ m.freed.Perm (List.range h.length) := by
  obtain ⟨h, root, -, -, hinstance, -⟩ := exists_instance oneFile ⟨1, 2, 3, 4, 5, 6⟩
    (by decide +kernel)
  obtain ⟨m, hdelete, hperm⟩ := testmanager_frees_nodes _ _ hinstance
  exact ⟨h, root, m, hinstance, hdelete, hperm⟩

end NovaProva
