import NovaProva.Lib.Links
import NovaProva.Tree.TestNode
import NovaProva.Util.Filename

/-!
# Tree — MakePath

`testnode_t::make_path`, on the nodes as they are in memory: each has a pointer to its parent, to
its first child and to its next sibling, and a path is made by looking for each component among the
children of the node before, and linking a new node in behind the last of them.

* `Cell`, `Heap`: the nodes with their links; a pointer is an index.
* `makePath`, `attach`: what discovery does to the tree.
* `Good`: the invariant, with the children of every node as a list.
* `IsNode`: the node of a list of components.
* `built_treeOf`: what the tree is after any calls.
-/

namespace NovaProva

/-! ### Nodes in memory -/

/-- `redirect_t`, an intercept of a node. -/
structure Redirection where
  target : Nat
  name : Option CString
  mock : Nat
  deriving DecidableEq

/-- `testnode_t`. -/
structure Cell where
  next : Option Nat := none
  parent : Option Nat := none
  children : Option Nat := none
  data : NodeData := {}
  intercepts : List Redirection := []
  deriving DecidableEq

/-- The nodes that were allocated, in that order. -/
abbrev Heap := List Cell

namespace Heap

/-- `next_`, of a node that exists. -/
def nextOf (h : Heap) (a : Nat) : Option (Option Nat) := h[a]?.map Cell.next

/-- `parent_`. -/
def parentOf (h : Heap) (a : Nat) : Option (Option Nat) := h[a]?.map Cell.parent

/-- `children_`. -/
def childrenOf (h : Heap) (a : Nat) : Option (Option Nat) := h[a]?.map Cell.children

/-- `name_`. -/
def nameOf (h : Heap) (a : Nat) : Option CString := h[a]?.bind fun cell => cell.data.name

theorem nameOf_eq (h : Heap) (a : Nat) :
    h.nameOf a = (h[a]?.map fun cell => cell.data.name).bind id := by
  simp [nameOf, Option.bind_map]

/-- What is attached to a node. -/
def carries (h : Heap) (a : Nat) : Option (NodeData × List Redirection) :=
  h[a]?.map fun cell => (cell.data, cell.intercepts)

end Heap

/-! ### `make_path` -/

/-- A `testnode_t **`: the link that is written through it. -/
inductive Slot where
  | children (a : Nat)
  | next (a : Nat)

/-- The node whose link it is. -/
def Slot.owner : Slot → Nat
  | .children a => a
  | .next a     => a

/-- A node is stored through the pointer `tailp`. -/
def Slot.set (child : Nat) (cell : Cell) : Slot → Cell
  | .children _ => { cell with children := some child }
  | .next _     => { cell with next := some child }

/-- `*tailp = child`. -/
def Slot.write (child : Nat) (h : Heap) (tailp : Slot) : Heap :=
  h.modify tailp.owner fun cell => tailp.set child cell

/-- The loop over the children, in at most `fuel` turns: where it stops, and `tailp` there.  A node
without a name cannot be compared. -/
def findChild (h : Heap) (part : CString) : Nat → Option Nat → Slot →
    Except Fault (Option Nat × Slot)
  | _, none, tailp => .ok (none, tailp)
  | 0, some _, _ => .error .fuel
  | fuel + 1, some child, tailp =>
    match h[child]? with
    | none => .error .null
    | some cell =>
      match cell.data.name with
      | none => .error .null
      | some name =>
        if name = part then .ok (some child, tailp)
        else findChild h part fuel cell.next (.next child)

/-- A new node below `parent`, linked in through `tailp`. -/
def addChild (h : Heap) (parent : Nat) (part : CString) (tailp : Slot) : Heap :=
  let child := h.length
  (tailp.write child (h ++ [{ data := { name := some part } }])).modify child
    fun cell => { cell with parent := some parent }

/-- One turn of the loop over the components. -/
def makePart (h : Heap) (parent : Nat) (part : CString) : Except Fault (Heap × Nat) :=
  match h[parent]? with
  | none => .error .null
  | some cell =>
    match findChild h part h.length cell.children (.children parent) with
    | .error e => .error e
    | .ok (some child, _) => .ok (h, child)
    | .ok (none, tailp) => .ok (addChild h parent part tailp, h.length)

/-- The loop over the components; `child` is not initialised before its first turn. -/
def makeParts (h : Heap) (parent : Nat) (child : Option Nat) :
    List CString → Except Fault (Heap × Nat)
  | [] =>
    match child with
    | none       => .error .null
    | some child => .ok (h, child)
  | part :: parts =>
    match makePart h parent part with
    | .error e => .error e
    | .ok r    => makeParts r.1 r.2 (some r.2) parts

/-- What `tok_t::next` returns one after the other. -/
def components (name : CString) : List CString :=
  (Filename.parts name.bytes).map CString.ofBuffer

/-- `make_path` on the root. -/
def makePath (h : Heap) (name : CString) : Except Fault (Heap × Nat) :=
  makeParts h 0 none (components name)

/-! ### What is attached to a node -/

/-- What discovery attaches to a node. -/
inductive Attachment where
  | function (type : FuncType) (f : Func)
  | mock (r : Redirection)
  | parameter (p : Parameter)

/-- `set_function`; a second function of a kind is dropped. -/
def setFunction (type : FuncType) (f : Func) (d : NodeData) : NodeData :=
  match type with
  | .before => { d with before := some (d.before.getD f) }
  | .test   => { d with test := some (d.test.getD f) }
  | .after  => { d with after := some (d.after.getD f) }
  | _       => d

/-- `set_function`, `add_mock` and `add_parameter`. -/
def Attachment.attach (cell : Cell) : Attachment → Cell
  | .function type f => { cell with data := setFunction type f cell.data }
  | .mock r          => { cell with intercepts := cell.intercepts ++ [r] }
  | .parameter p     => { cell with data := { cell.data with
                            parameters := cell.data.parameters ++ [p] } }

/-- What the calls made so far have led to: the nodes, and the components each `make_path` was
asked for with the node it returned. -/
inductive Built : Heap → List (List CString × Nat) → Prop where
  | root : Built [{}] []
  | makePath {h h' : Heap} {calls : List (List CString × Nat)} {c : Nat} (hb : Built h calls)
      (name : CString) (hname : components name ≠ [])
      (hcall : NovaProva.makePath h name = .ok (h', c)) :
      Built h' (calls ++ [(components name, c)])
  | attach {h : Heap} {calls : List (List CString × Nat)} {a : Nat} (hb : Built h calls)
      (ha : a < h.length) (x : Attachment) : Built (h.modify a fun cell => x.attach cell) calls

/-! ### The node of a list of components -/

/-- `cs` are the children of `a`, from `children_` on along `next_`. -/
def Children (h : Heap) (a : Nat) (cs : List Nat) : Prop :=
  ∃ start, h.childrenOf a = some start ∧ Links h.nextOf start cs

/-- The node of a list of components, from the root on. -/
inductive IsNode (h : Heap) : List CString → Nat → Prop where
  | root : IsNode h [] 0
  | child {p : List CString} {a c : Nat} {cs : List Nat} {name : CString} (hp : IsNode h p a)
      (hcs : Children h a cs) (hc : c ∈ cs) (hname : h.nameOf c = some name) :
      IsNode h (p ++ [name]) c

/-! ### The invariant -/

/-- **The invariant.**  `kids` are the children of every node; they come after their parent in the
order of allocation, point back to it, and are told apart by their names. -/
structure Good (h : Heap) (kids : Nat → List Nat) : Prop where
  root : h.parentOf 0 = some none
  children : ∀ a < h.length, Children h a (kids a)
  outside : ∀ a, h.length ≤ a → kids a = []
  parent : ∀ a, ∀ c ∈ kids a, a < c ∧ h.parentOf c = some (some a)
  named : ∀ a, ∀ c ∈ kids a, ∃ name, h.nameOf c = some name
  distinct : ∀ a, ((kids a).map h.nameOf).Nodup
  inner : ∀ c, 0 < c → c < h.length → ∃ a, c ∈ kids a

namespace Good

variable {h : Heap} {kids : Nat → List Nat} {a b c : Nat}

/-- Only nodes of the heap have a parent. -/
theorem parentOf_lt {p : Option Nat} (hp : h.parentOf c = some p) : c < h.length := by
  obtain ⟨cell, hcell, -⟩ := Option.map_eq_some_iff.mp hp
  exact (List.getElem?_eq_some_iff.mp hcell).1

/-- Children are on the heap. -/
theorem lt (hg : Good h kids) (hc : c ∈ kids a) : c < h.length := parentOf_lt (hg.parent a c hc).2

/-- Nodes with children are on the heap. -/
theorem lt' (hg : Good h kids) (hc : c ∈ kids a) : a < h.length :=
  Nat.lt_trans (hg.parent a c hc).1 (hg.lt hc)

/-- There is a root. -/
theorem pos (hg : Good h kids) : 0 < h.length := parentOf_lt hg.root

/-- No node is a child twice. -/
theorem nodup (hg : Good h kids) (a : Nat) : (kids a).Nodup := (hg.distinct a).of_map _

/-- A node is the child of one node only. -/
theorem parent_unique (hg : Good h kids) (ha : c ∈ kids a) (hb : c ∈ kids b) : a = b := by
  have heq := (hg.parent a c ha).2.symm.trans (hg.parent b c hb).2
  simpa using heq

/-- There are no more children than nodes. -/
theorem length_kids_le (hg : Good h kids) (a : Nat) : (kids a).length ≤ h.length := by
  have hsub : kids a ⊆ List.range h.length := fun c hc => List.mem_range.mpr (hg.lt hc)
  simpa using (hg.nodup a).length_le_of_subset hsub

/-- The list that is linked is the children. -/
theorem children_eq (hg : Good h kids) {cs : List Nat} (hcs : Children h a cs) : cs = kids a := by
  obtain ⟨start, hstart, hl⟩ := hcs
  obtain ⟨cell, hcell, -⟩ := Option.map_eq_some_iff.mp hstart
  obtain ⟨start', hstart', hl'⟩ := hg.children a (List.getElem?_eq_some_iff.mp hcell).1
  rw [hstart] at hstart'
  obtain rfl := Option.some.inj hstart'
  exact hl.unique hl'

/-- The children of a node, by their names. -/
theorem eq_of_nameOf (hg : Good h kids) (hb : b ∈ kids a) (hc : c ∈ kids a)
    (heq : h.nameOf b = h.nameOf c) : b = c :=
  List.inj_on_of_nodup_map (hg.distinct a) hb hc heq

end Good

/-! ### Paths and nodes -/

namespace IsNode

variable {h : Heap} {kids : Nat → List Nat} {a b c : Nat} {p q : List CString}

/-- A child is at the path of its parent and its name. -/
theorem of_mem (hg : Good h kids) (hp : IsNode h p a) (hc : c ∈ kids a) {name : CString}
    (hname : h.nameOf c = some name) : IsNode h (p ++ [name]) c :=
  hp.child (hg.children a (hg.lt' hc)) hc hname

/-- Inversion: the node is the root or a child of a node. -/
theorem inv (hg : Good h kids) (hp : IsNode h p c) :
    (p = [] ∧ c = 0) ∨ ∃ q a name, p = q ++ [name] ∧ IsNode h q a ∧ c ∈ kids a ∧
      h.nameOf c = some name := by
  cases hp with
  | root => exact .inl ⟨rfl, rfl⟩
  | child hq hcs hc hname =>
    obtain rfl := hg.children_eq hcs
    exact .inr ⟨_, _, _, rfl, hq, hc, hname⟩

/-- Nodes at a path are on the heap. -/
theorem lt (hg : Good h kids) (hp : IsNode h p c) : c < h.length := by
  rcases hp.inv hg with ⟨-, rfl⟩ | ⟨q, a, name, -, -, hc, -⟩
  · exact hg.pos
  · exact hg.lt hc

/-- A list of components has one node. -/
theorem node_unique (hg : Good h kids) (hp : IsNode h p a) (hp' : IsNode h p b) : a = b := by
  induction hp generalizing b with
  | root =>
    rcases hp'.inv hg with ⟨-, rfl⟩ | ⟨q, a, name, hnil, -⟩
    · rfl
    · simp at hnil
  | child hp hcs hc hname ih =>
    obtain rfl := hg.children_eq hcs
    rcases hp'.inv hg with ⟨hnil, -⟩ | ⟨q, a', name', heq, hq, hb, hname'⟩
    · simp at hnil
    · obtain ⟨rfl, hlast⟩ := List.append_inj' heq rfl
      obtain rfl := ih hq
      refine hg.eq_of_nameOf hc hb ?_
      rw [hname, hname']
      exact congrArg _ (List.head_eq_of_cons_eq hlast)

/-- A node has one list of components. -/
theorem path_unique (hg : Good h kids) (hp : IsNode h p c) (hq : IsNode h q c) : p = q := by
  induction hp generalizing q with
  | root =>
    rcases hq.inv hg with ⟨rfl, -⟩ | ⟨q', a, name, -, -, hc, -⟩
    · rfl
    · exact absurd (hg.parent a 0 hc).1 (Nat.not_lt_zero _)
  | child hp hcs hc hname ih =>
    obtain rfl := hg.children_eq hcs
    rcases hq.inv hg with ⟨-, rfl⟩ | ⟨q', a', name', rfl, hq', hc', hname'⟩
    · exact absurd (hg.parent _ 0 hc).1 (Nat.not_lt_zero _)
    · obtain rfl := hg.parent_unique hc hc'
      rw [hname] at hname'
      rw [ih hq', Option.some.inj hname']

/-- Every node has a list of components. -/
theorem exists_path (hg : Good h kids) (hc : c < h.length) : ∃ p, IsNode h p c := by
  induction c using Nat.strong_induction_on with
  | h c ih =>
    rcases Nat.eq_zero_or_pos c with rfl | hpos
    · exact ⟨[], .root⟩
    · obtain ⟨a, ha⟩ := hg.inner c hpos hc
      obtain ⟨p, hp⟩ := ih a (hg.parent a c ha).1 (hg.lt' ha)
      obtain ⟨name, hname⟩ := hg.named a c ha
      exact ⟨_, hp.of_mem hg ha hname⟩

end IsNode

/-! ### The links of a new node -/

section AddChild

variable {h : Heap} {a b x : Nat} {part : CString} {tailp : Slot}

/-- The node that was added. -/
theorem getElem?_addChild_self (a : Nat) (part : CString) (htail : tailp.owner < h.length) :
    (addChild h a part tailp)[h.length]? =
      some { parent := some a, data := { name := some part } } := by
  have hne : tailp.owner ≠ h.length := Nat.ne_of_lt htail
  simp [addChild, Slot.write, hne]

/-- Every other node, except for the link that is written. -/
theorem getElem?_addChild_of_lt (hb : b < h.length) :
    (addChild h a part tailp)[b]? =
      if tailp.owner = b then h[b]?.map fun cell => tailp.set h.length cell else h[b]? := by
  have hne : h.length ≠ b := Nat.ne_of_gt hb
  simp only [addChild, Slot.write, List.getElem?_modify, List.getElem?_append_left hb, if_neg hne]
  by_cases howner : tailp.owner = b <;> simp [howner]

@[simp] theorem length_addChild : (addChild h a part tailp).length = h.length + 1 := by
  simp [addChild, Slot.write]

/-- What does not look at the written link is as before. -/
theorem addChild_congr {β : Type} (f : Cell → β)
    (hset : ∀ cell, f (tailp.set h.length cell) = f cell) (hb : b < h.length) :
    (addChild h a part tailp)[b]?.map f = h[b]?.map f := by
  rw [getElem?_addChild_of_lt hb]
  split
  · simp [Function.comp_def, hset]
  · rfl

/-- A new child leaves the names of other nodes. -/
theorem nameOf_addChild (hb : b < h.length) :
    (addChild h a part tailp).nameOf b = h.nameOf b := by
  rw [Heap.nameOf_eq, Heap.nameOf_eq h, addChild_congr _ (fun cell => by cases tailp <;> rfl) hb]

/-- A new child leaves the parents of other nodes. -/
theorem parentOf_addChild (hb : b < h.length) :
    (addChild h a part tailp).parentOf b = h.parentOf b :=
  addChild_congr _ (fun cell => by cases tailp <;> rfl) hb

/-- A new child leaves what other nodes carry. -/
theorem carries_addChild (hb : b < h.length) :
    (addChild h a part tailp).carries b = h.carries b :=
  addChild_congr _ (fun cell => by cases tailp <;> rfl) hb

/-- A new child leaves the siblings of other nodes but the last child. -/
theorem nextOf_addChild_ne (hb : b < h.length) (hne : tailp ≠ .next b) :
    (addChild h a part tailp).nextOf b = h.nextOf b := by
  simp only [Heap.nextOf, getElem?_addChild_of_lt hb]
  cases tailp with
  | children x => split <;> simp [Slot.set, Function.comp_def]
  | next x =>
    have hx : (Slot.next x).owner ≠ b := fun hx => hne (congrArg Slot.next hx)
    rw [if_neg hx]

/-- The next sibling of the last child is the new one. -/
theorem nextOf_addChild_eq (hb : b < h.length) :
    (addChild h a part (.next b)).nextOf b = some (some h.length) := by
  simp [Heap.nextOf, getElem?_addChild_of_lt hb, Slot.owner, Slot.set, List.getElem?_eq_getElem hb]

/-- A new child leaves the first children of other nodes. -/
theorem childrenOf_addChild_ne (hb : b < h.length) (hne : tailp ≠ .children b) :
    (addChild h a part tailp).childrenOf b = h.childrenOf b := by
  simp only [Heap.childrenOf, getElem?_addChild_of_lt hb]
  cases tailp with
  | children x =>
    have hx : (Slot.children x).owner ≠ b := fun hx => hne (congrArg Slot.children hx)
    rw [if_neg hx]
  | next x => split <;> simp [Slot.set, Function.comp_def]

/-- The first child of a node without any is the new one. -/
theorem childrenOf_addChild_eq (hb : b < h.length) :
    (addChild h a part (.children b)).childrenOf b = some (some h.length) := by
  simp [Heap.childrenOf, getElem?_addChild_of_lt hb, Slot.owner, Slot.set,
    List.getElem?_eq_getElem hb]

end AddChild

/-- `tailp` behind the children `cs` of `a`. -/
def tailOf (a : Nat) (cs : List Nat) : Slot := (cs.getLast?.map Slot.next).getD (.children a)

/-- The children after a new one at `n` was linked in below `a`. -/
def addKid (kids : Nat → List Nat) (a n : Nat) : Nat → List Nat :=
  Function.update kids a (kids a ++ [n])

/-- The children of a node, with a new one. -/
theorem mem_addKid {kids : Nat → List Nat} {a b c n : Nat} :
    c ∈ addKid kids a n b ↔ c ∈ kids b ∨ (b = a ∧ c = n) := by
  by_cases hb : b = a
  · subst hb
    simp [addKid]
  · simp [addKid, hb]

section GoodAddChild

variable {h : Heap} {kids : Nat → List Nat} {a : Nat} {part : CString}

/-- The pointer at the end of a list of children is in a node. -/
theorem Good.owner_tailOf (hg : Good h kids) (ha : a < h.length) :
    (tailOf a (kids a)).owner < h.length := by
  cases hlast : (kids a).getLast? with
  | none => simpa [tailOf, hlast, Slot.owner] using ha
  | some l => simpa [tailOf, hlast, Slot.owner] using hg.lt (List.mem_of_getLast? hlast)

/-- The children of the other nodes are linked as before, and those of `a` with the new one
behind. -/
theorem Good.children_addChild (hg : Good h kids) (ha : a < h.length) {b : Nat}
    (hb : b < h.length) :
    Children (addChild h a part (tailOf a (kids a))) b (addKid kids a h.length b) := by
  obtain ⟨start, hstart, hl⟩ := hg.children b hb
  have hnew : (addChild h a part (tailOf a (kids a))).nextOf h.length = some none := by
    simp only [Heap.nextOf, getElem?_addChild_self a part (hg.owner_tailOf ha), Option.map_some]
  rcases List.eq_nil_or_concat (kids a) with hnil | ⟨init, l, hconcat⟩
  · -- the first child: the link of `a` itself is written
    have htail : tailOf a (kids a) = .children a := by simp [tailOf, hnil]
    rw [htail] at hnew ⊢
    by_cases hba : b = a
    · subst hba
      refine ⟨some h.length, childrenOf_addChild_eq hb, ?_⟩
      simpa [addKid, hnil] using Links.cons hnew .nil
    · refine ⟨start, ?_, ?_⟩
      · rw [childrenOf_addChild_ne hb fun heq => hba (Slot.children.inj heq).symm, hstart]
      · rw [addKid, Function.update_of_ne hba]
        exact hl.congr fun c hc => nextOf_addChild_ne (hg.lt hc) (by simp)
  · -- a sibling before it: that one's link is written
    rw [List.concat_eq_append] at hconcat
    have htail : tailOf a (kids a) = .next l := by simp [tailOf, hconcat]
    have hla : l ∈ kids a := by simp [hconcat]
    rw [htail] at hnew ⊢
    refine ⟨start, (childrenOf_addChild_ne hb (by simp)).trans hstart, ?_⟩
    by_cases hba : b = a
    · subst hba
      rw [addKid, Function.update_self, hconcat]
      rw [hconcat] at hl
      refine hl.concat (fun c hc => nextOf_addChild_ne ?_ ?_) (nextOf_addChild_eq (hg.lt hla)) hnew
      · exact hg.lt (a := b) (by simp [hconcat, hc])
      · intro heq
        have hnodup := hg.nodup b
        rw [hconcat, Slot.next.inj heq] at hnodup
        exact (List.nodup_append.mp hnodup).2.2 c hc c List.mem_cons_self rfl
    · rw [addKid, Function.update_of_ne hba]
      refine hl.congr fun c hc => nextOf_addChild_ne (hg.lt hc) fun heq => hba ?_
      obtain rfl := Slot.next.inj heq
      exact hg.parent_unique hc hla

/-- **A new child keeps the invariant.** -/
theorem Good.addChild (hg : Good h kids) (ha : a < h.length)
    (hnew : ∀ c ∈ kids a, h.nameOf c ≠ some part) :
    Good (NovaProva.addChild h a part (tailOf a (kids a))) (addKid kids a h.length) := by
  have howner := hg.owner_tailOf ha
  have hself := getElem?_addChild_self a part howner
  refine ⟨?_, ?_, ?_, ?_, ?_, ?_, ?_⟩
  · rw [parentOf_addChild hg.pos]
    exact hg.root
  · intro b hb
    rw [length_addChild] at hb
    rcases Nat.lt_or_eq_of_le (Nat.le_of_lt_succ hb) with hlt | rfl
    · exact hg.children_addChild ha hlt
    · refine ⟨none, by simp only [Heap.childrenOf, hself, Option.map_some], ?_⟩
      rw [addKid, Function.update_of_ne (Nat.ne_of_gt ha), hg.outside _ (Nat.le_refl _)]
      exact .nil
  · intro b hb
    rw [length_addChild] at hb
    rw [addKid, Function.update_of_ne (by omega)]
    exact hg.outside b (by omega)
  · intro b c hc
    rcases mem_addKid.mp hc with hc | ⟨rfl, rfl⟩
    · rw [parentOf_addChild (hg.lt hc)]
      exact hg.parent b c hc
    · exact ⟨ha, by simp only [Heap.parentOf, hself, Option.map_some]⟩
  · intro b c hc
    rcases mem_addKid.mp hc with hc | ⟨rfl, rfl⟩
    · rw [nameOf_addChild (hg.lt hc)]
      exact hg.named b c hc
    · exact ⟨part, by simp only [Heap.nameOf, hself, Option.bind_some]⟩
  · intro b
    have hold : (kids b).map (NovaProva.addChild h a part (tailOf a (kids a))).nameOf =
        (kids b).map h.nameOf := List.map_congr_left fun c hc => nameOf_addChild (hg.lt hc)
    by_cases hba : b = a
    · subst hba
      have hn : (NovaProva.addChild h b part (tailOf b (kids b))).nameOf h.length = some part := by
        simp only [Heap.nameOf, hself, Option.bind_some]
      rw [addKid, Function.update_self, List.map_append, hold, List.map_singleton, hn,
        List.nodup_append]
      refine ⟨hg.distinct b, List.nodup_singleton _, ?_⟩
      intro x hx y hy
      obtain ⟨c, hc, rfl⟩ := List.mem_map.mp hx
      rw [List.mem_singleton.mp hy]
      exact hnew c hc
    · rw [addKid, Function.update_of_ne hba, hold]
      exact hg.distinct b
  · intro c hpos hc
    rw [length_addChild] at hc
    rcases Nat.lt_or_eq_of_le (Nat.le_of_lt_succ hc) with hlt | rfl
    · obtain ⟨b, hb⟩ := hg.inner c hpos hlt
      exact ⟨b, mem_addKid.mpr (.inl hb)⟩
    · exact ⟨a, mem_addKid.mpr (.inr ⟨rfl, rfl⟩)⟩

end GoodAddChild

/-! ### Looking for a child -/

section FindChild

variable {h : Heap} {part : CString} {fuel : Nat} {start : Option Nat} {cs : List Nat}

/-- A cell by its name and its next sibling. -/
theorem exists_cell {c : Nat} {name : CString} {next : Option Nat} (hname : h.nameOf c = some name)
    (hnext : h.nextOf c = some next) :
    ∃ cell, h[c]? = some cell ∧ cell.data.name = some name ∧ cell.next = next := by
  obtain ⟨cell, hcell, hn⟩ := Option.map_eq_some_iff.mp hnext
  refine ⟨cell, hcell, ?_, hn⟩
  simpa [Heap.nameOf, hcell] using hname

/-- The loop stops at the child of that name. -/
theorem findChild_found (hl : Links h.nextOf start cs)
    (hnamed : ∀ c ∈ cs, ∃ name, h.nameOf c = some name) {c : Nat} (hc : c ∈ cs)
    (hname : h.nameOf c = some part) (hfuel : cs.length ≤ fuel) (tailp : Slot) :
    ∃ d ∈ cs, ∃ tailp', findChild h part fuel start tailp = .ok (some d, tailp') ∧
      h.nameOf d = some part := by
  induction hl generalizing fuel tailp with
  | nil => exact absurd hc List.not_mem_nil
  | @cons a start cs ha hl ih =>
    obtain ⟨n, rfl⟩ := Nat.exists_eq_add_of_le' (Nat.lt_of_lt_of_le (Nat.zero_lt_succ _) hfuel)
    obtain ⟨name, hn⟩ := hnamed a List.mem_cons_self
    obtain ⟨cell, hcell, hdata, rfl⟩ := exists_cell hn ha
    by_cases heq : name = part
    · exact ⟨a, List.mem_cons_self, tailp, by simp [findChild, hcell, hdata, heq], heq ▸ hn⟩
    · have hrest : c ∈ cs := by
        rcases List.mem_cons.mp hc with rfl | hc
        · exact absurd (Option.some.inj (hn.symm.trans hname)) heq
        · exact hc
      obtain ⟨d, hd, tailp', hfind, hdname⟩ := ih
        (fun x hx => hnamed x (List.mem_cons_of_mem _ hx)) hrest (Nat.le_of_succ_le_succ hfuel)
        (.next a)
      exact ⟨d, List.mem_cons_of_mem _ hd, tailp', by simp [findChild, hcell, hdata, heq, hfind],
        hdname⟩

/-- The loop ends behind the last child. -/
theorem findChild_none (hl : Links h.nextOf start cs)
    (hnamed : ∀ c ∈ cs, ∃ name, h.nameOf c = some name)
    (hnew : ∀ c ∈ cs, h.nameOf c ≠ some part) (hfuel : cs.length ≤ fuel) (tailp : Slot) :
    findChild h part fuel start tailp =
      .ok (none, (cs.getLast?.map Slot.next).getD tailp) := by
  induction hl generalizing fuel tailp with
  | nil => cases fuel <;> rfl
  | @cons a start cs ha hl ih =>
    obtain ⟨n, rfl⟩ := Nat.exists_eq_add_of_le' (Nat.lt_of_lt_of_le (Nat.zero_lt_succ _) hfuel)
    obtain ⟨name, hn⟩ := hnamed a List.mem_cons_self
    obtain ⟨cell, hcell, hdata, rfl⟩ := exists_cell hn ha
    have heq : name ≠ part := fun heq => hnew a List.mem_cons_self (heq ▸ hn)
    have hrest := ih (fun x hx => hnamed x (List.mem_cons_of_mem _ hx))
      (fun x hx => hnew x (List.mem_cons_of_mem _ hx)) (Nat.le_of_succ_le_succ hfuel) (.next a)
    have hlast : ((a :: cs).getLast?.map Slot.next).getD tailp =
        (cs.getLast?.map Slot.next).getD (.next a) := by
      rw [List.getLast?_cons]
      cases cs.getLast? <;> rfl
    simp only [findChild, hcell, hdata, if_neg heq, hlast]
    exact hrest

end FindChild

/-! ### One component -/

/-- What a `make_path` may do: it adds nodes, and leaves what is attached to the others. -/
structure Extends (h h' : Heap) : Prop where
  length_le : h.length ≤ h'.length
  carries_eq : ∀ a < h.length, h'.carries a = h.carries a
  isNode : ∀ p a, IsNode h p a → IsNode h' p a

theorem Extends.refl (h : Heap) : Extends h h :=
  ⟨Nat.le_refl _, fun _ _ => rfl, fun _ _ hp => hp⟩

theorem Extends.trans {h h' h'' : Heap} (h₁ : Extends h h') (h₂ : Extends h' h'') :
    Extends h h'' where
  length_le := Nat.le_trans h₁.length_le h₂.length_le
  carries_eq a ha := by
    rw [h₂.carries_eq a (Nat.lt_of_lt_of_le ha h₁.length_le), h₁.carries_eq a ha]
  isNode p a hp := h₂.isNode p a (h₁.isNode p a hp)

section MakePart

variable {h : Heap} {kids : Nat → List Nat} {a : Nat} {p : List CString} {part : CString}

/-- The nodes after a new child was added: those before, and that. -/
theorem isNode_addChild_iff (hg : Good h kids) (hp : IsNode h p a)
    (hnew : ∀ c ∈ kids a, h.nameOf c ≠ some part) {q : List CString} {c : Nat} :
    IsNode (addChild h a part (tailOf a (kids a))) q c ↔
      IsNode h q c ∨ (q = p ++ [part] ∧ c = h.length) := by
  have ha := hp.lt hg
  have hg' := hg.addChild ha hnew
  have hold : ∀ q c, IsNode h q c → IsNode (addChild h a part (tailOf a (kids a))) q c := by
    intro q c hq
    induction hq with
    | root => exact .root
    | child hq hcs hc hname ih =>
      obtain rfl := hg.children_eq hcs
      refine ih.of_mem hg' (mem_addKid.mpr (.inl hc)) ?_
      rw [nameOf_addChild (hg.lt hc), hname]
  have hself : (addChild h a part (tailOf a (kids a))).nameOf h.length = some part := by
    simp only [Heap.nameOf, getElem?_addChild_self a part (hg.owner_tailOf ha), Option.bind_some]
  constructor
  · intro hq
    induction hq with
    | root => exact .inl .root
    | @child q b c cs name hq hcs hc hname ih =>
      obtain rfl := hg'.children_eq hcs
      rcases mem_addKid.mp hc with hc | ⟨rfl, rfl⟩
      · rw [nameOf_addChild (hg.lt hc)] at hname
        rcases ih with ih | ⟨-, rfl⟩
        · exact .inl (ih.of_mem hg hc hname)
        · exact absurd (hg.lt' hc) (Nat.lt_irrefl _)
      · rw [hself] at hname
        obtain rfl := Option.some.inj hname
        rcases ih with ih | ⟨-, rfl⟩
        · exact .inr ⟨by rw [ih.path_unique hg hp], rfl⟩
        · exact absurd ha (Nat.lt_irrefl _)
  · rintro (hq | ⟨rfl, rfl⟩)
    · exact hold q c hq
    · exact (hold p a hp).of_mem hg' (mem_addKid.mpr (.inr ⟨rfl, rfl⟩)) hself

/-- **Step.**  A component is found among the children, or added to them. -/
theorem makePart_spec (hg : Good h kids) (hp : IsNode h p a) (part : CString) :
    ∃ h' kids' c, makePart h a part = .ok (h', c) ∧ Good h' kids' ∧ Extends h h' ∧
      IsNode h' (p ++ [part]) c ∧
      ∀ q d, IsNode h' q d → IsNode h q d ∨ q = p ++ [part] := by
  have ha := hp.lt hg
  obtain ⟨start, hstart, hl⟩ := hg.children a ha
  obtain ⟨cell, hcell, rfl⟩ := Option.map_eq_some_iff.mp hstart
  by_cases hex : ∃ c ∈ kids a, h.nameOf c = some part
  · obtain ⟨c, hc, hname⟩ := hex
    obtain ⟨d, hd, tailp, hfind, hdname⟩ :=
      findChild_found hl (hg.named a) hc hname (hg.length_kids_le a) (.children a)
    exact ⟨h, kids, d, by simp [makePart, hcell, hfind], hg, .refl h, hp.of_mem hg hd hdname,
      fun q e hq => .inl hq⟩
  · have hnew : ∀ c ∈ kids a, h.nameOf c ≠ some part := fun c hc hname => hex ⟨c, hc, hname⟩
    have hfind := findChild_none hl (hg.named a) hnew (hg.length_kids_le a) (.children a)
    refine ⟨addChild h a part (tailOf a (kids a)), addKid kids a h.length, h.length, ?_,
      hg.addChild ha hnew, ?_, ?_, ?_⟩
    · simp [makePart, hcell, hfind, tailOf]
    · refine ⟨by simp, fun b hb => carries_addChild hb, fun q b hq => ?_⟩
      exact (isNode_addChild_iff hg hp hnew).mpr (.inl hq)
    · exact (isNode_addChild_iff hg hp hnew).mpr (.inr ⟨rfl, rfl⟩)
    · intro q d hq
      rcases (isNode_addChild_iff hg hp hnew).mp hq with hq | ⟨hq, -⟩
      · exact .inl hq
      · exact .inr hq

/-- The components of a node's ancestors. -/
theorem IsNode.take {q : List CString} {c : Nat} (hq : IsNode h q c) (hpre : p <+: q) :
    ∃ b, IsNode h p b := by
  induction hq with
  | root =>
    obtain rfl := List.prefix_nil.mp hpre
    exact ⟨0, .root⟩
  | child hq hcs hc hname ih =>
    rcases List.prefix_concat_iff.mp hpre with rfl | hpre
    · exact ⟨_, hq.child hcs hc hname⟩
    · exact ih hpre

/-- **Run.**  All the components of a path, from the node `a` on. -/
theorem makeParts_spec (hg : Good h kids) (hp : IsNode h p a) (child : Option Nat)
    {parts : List CString} (hchild : parts = [] → child = some a) :
    ∃ h' kids' c, makeParts h a child parts = .ok (h', c) ∧ Good h' kids' ∧ Extends h h' ∧
      IsNode h' (p ++ parts) c ∧
      ∀ q d, IsNode h' q d → IsNode h q d ∨ q <+: p ++ parts := by
  induction parts generalizing h kids a p child with
  | nil =>
    rw [hchild rfl, List.append_nil]
    exact ⟨h, kids, a, rfl, hg, .refl h, hp, fun q d hq => .inl hq⟩
  | cons part parts ih =>
    obtain ⟨h₁, kids₁, c₁, hmake, hg₁, hext₁, hc₁, hall₁⟩ := makePart_spec hg hp part
    obtain ⟨h₂, kids₂, c₂, hrest, hg₂, hext₂, hc₂, hall₂⟩ :=
      ih hg₁ hc₁ (some c₁) fun _ => rfl
    have happend : p ++ part :: parts = p ++ [part] ++ parts := by simp
    rw [happend]
    refine ⟨h₂, kids₂, c₂, by simp [makeParts, hmake, hrest], hg₂, hext₁.trans hext₂, hc₂, ?_⟩
    intro q d hq
    rcases hall₂ q d hq with hq | hq
    · rcases hall₁ q d hq with hq | rfl
      · exact .inl hq
      · exact .inr (List.prefix_append _ _)
    · exact .inr hq

end MakePart

/-! ### Attaching -/

/-- Two heaps with the same links and names. -/
structure SameLinks (h h' : Heap) : Prop where
  length_eq : h'.length = h.length
  next_eq : h'.nextOf = h.nextOf
  parent_eq : h'.parentOf = h.parentOf
  children_eq : h'.childrenOf = h.childrenOf
  name_eq : h'.nameOf = h.nameOf

section Attach

variable {h h' : Heap} {kids : Nat → List Nat}

theorem SameLinks.symm (hs : SameLinks h h') : SameLinks h' h :=
  ⟨hs.length_eq.symm, hs.next_eq.symm, hs.parent_eq.symm, hs.children_eq.symm, hs.name_eq.symm⟩

/-- Links that are the same make the same children. -/
theorem SameLinks.children (hs : SameLinks h h') {a : Nat} {cs : List Nat} (hcs : Children h a cs) :
    Children h' a cs := by
  rw [Children, hs.children_eq, hs.next_eq]
  exact hcs

/-- Links that are the same make the same tree. -/
theorem SameLinks.good (hs : SameLinks h h') (hg : Good h kids) : Good h' kids where
  root := hs.parent_eq ▸ hg.root
  children a ha := hs.children (hg.children a (hs.length_eq ▸ ha))
  outside a ha := hg.outside a (hs.length_eq ▸ ha)
  parent a c hc := hs.parent_eq ▸ hg.parent a c hc
  named a c hc := hs.name_eq ▸ hg.named a c hc
  distinct a := hs.name_eq ▸ hg.distinct a
  inner c hpos hc := hg.inner c hpos (hs.length_eq ▸ hc)

/-- Links that are the same make the same paths. -/
theorem SameLinks.isNode (hs : SameLinks h h') {p : List CString} {c : Nat} (hp : IsNode h p c) :
    IsNode h' p c := by
  induction hp with
  | root => exact .root
  | child hp hcs hc hname ih => exact ih.child (hs.children hcs) hc (hs.name_eq ▸ hname)

/-- Reading a part of the cells that an update leaves alone. -/
theorem modify_congr {β : Type} (f : Cell → β) {g : Cell → Cell} (hg : ∀ cell, f (g cell) = f cell)
    (h : Heap) (a b : Nat) : (h.modify a g)[b]?.map f = h[b]?.map f := by
  rw [List.getElem?_modify]
  by_cases hab : a = b <;> simp [hab, Function.comp_def, hg]

/-- What is stored in a node leaves the links. -/
theorem sameLinks_modify {g : Cell → Cell} (hnext : ∀ cell, (g cell).next = cell.next)
    (hparent : ∀ cell, (g cell).parent = cell.parent)
    (hchildren : ∀ cell, (g cell).children = cell.children)
    (hname : ∀ cell, (g cell).data.name = cell.data.name) (h : Heap) (a : Nat) :
    SameLinks h (h.modify a g) where
  length_eq := List.length_modify ..
  next_eq := funext fun b => modify_congr _ hnext h a b
  parent_eq := funext fun b => modify_congr _ hparent h a b
  children_eq := funext fun b => modify_congr _ hchildren h a b
  name_eq := by
    funext b
    rw [Heap.nameOf_eq, Heap.nameOf_eq h, modify_congr _ hname h a b]

theorem name_setFunction (type : FuncType) (f : Func) (d : NodeData) :
    (setFunction type f d).name = d.name := by
  cases type <;> rfl

/-- What is attached to a node changes no link. -/
theorem sameLinks_attach (x : Attachment) (h : Heap) (a : Nat) :
    SameLinks h (h.modify a fun cell => x.attach cell) := by
  refine sameLinks_modify ?_ ?_ ?_ ?_ h a <;> intro cell <;> cases x with
  | function type f => first | rfl | exact name_setFunction type f cell.data
  | mock r => rfl
  | parameter p => rfl

end Attach

/-! ### Whole histories -/

/-- What the tree is after the `make_path`s in `calls`. -/
structure TreeOf (h : Heap) (calls : List (List CString × Nat)) : Prop where
  prefixes : ∀ p, p ≠ [] → ((∃ c, IsNode h p c) ↔ ∃ q ∈ calls, p <+: q.1)
  one_node : ∀ p a b, IsNode h p a → IsNode h p b → a = b
  one_path : ∀ p q c, IsNode h p c → IsNode h q c → p = q
  no_other : ∀ c, 0 < c → c < h.length → ∃ p, p ≠ [] ∧ IsNode h p c
  siblings : ∀ a cs, Children h a cs → (cs.map h.nameOf).Nodup
  parents : ∀ a cs c, Children h a cs → c ∈ cs → h.parentOf c = some (some a)
  returned : ∀ q ∈ calls, IsNode h q.1 q.2
  next_call : ∀ name, components name ≠ [] → ∃ h' c, makePath h name = .ok (h', c) ∧
    ∀ a < h.length, h'.carries a = h.carries a

/-- A root alone is a tree. -/
theorem good_root : Good [{}] fun _ => [] := by
  refine ⟨rfl, ?_, fun _ _ => rfl, ?_, ?_, fun _ => List.nodup_nil, ?_⟩
  · intro a ha
    obtain rfl : a = 0 := by simpa using ha
    exact ⟨none, rfl, .nil⟩
  · exact fun _ c hc => absurd hc List.not_mem_nil
  · exact fun _ c hc => absurd hc List.not_mem_nil
  · intro c hpos hc
    simp at hc
    omega

/-- The invariant over the calls: every node is that of a prefix, and each call has its own. -/
theorem Built.good {h : Heap} {calls : List (List CString × Nat)} (hb : Built h calls) :
    ∃ kids, Good h kids ∧ (∀ q ∈ calls, IsNode h q.1 q.2) ∧
      ∀ p c, IsNode h p c → p = [] ∨ ∃ q ∈ calls, p <+: q.1 := by
  induction hb with
  | root =>
    refine ⟨_, good_root, fun q hq => absurd hq List.not_mem_nil, fun p c hp => ?_⟩
    rcases hp.inv good_root with ⟨hnil, -⟩ | ⟨q, a, name, -, -, hc, -⟩
    · exact .inl hnil
    · exact absurd hc List.not_mem_nil
  | @makePath h h' calls c hb name hname hcall ih =>
    obtain ⟨kids, hg, hreturned, hall⟩ := ih
    obtain ⟨h₁, kids₁, c₁, hmake, hg₁, hext, hnode, hnew⟩ :=
      makeParts_spec hg .root none fun hnil => absurd hnil hname
    have heq : (h', c) = (h₁, c₁) := Except.ok.inj (hcall.symm.trans hmake)
    obtain ⟨rfl, rfl⟩ := Prod.mk.inj heq
    refine ⟨kids₁, hg₁, ?_, ?_⟩
    · intro q hq
      rcases List.mem_append.mp hq with hq | hq
      · exact hext.isNode _ _ (hreturned q hq)
      · rw [List.mem_singleton.mp hq]
        exact hnode
    · intro p d hp
      rcases hnew p d hp with hp | hp
      · rcases hall p d hp with hnil | ⟨q, hq, hpre⟩
        · exact .inl hnil
        · exact .inr ⟨q, List.mem_append_left _ hq, hpre⟩
      · exact .inr ⟨_, List.mem_append_right _ List.mem_cons_self, hp⟩
  | @attach h calls a hb ha x ih =>
    obtain ⟨kids, hg, hreturned, hall⟩ := ih
    have hs := sameLinks_attach x h a
    exact ⟨kids, hs.good hg, fun q hq => hs.isNode (hreturned q hq),
      fun p c hp => hall p c (hs.symm.isNode hp)⟩

/-- **The tree of any calls.**  It has one node for each prefix of the components asked for and no
other, siblings have different names, every node points to its parent, every call has returned the
node of its own components, and the next one leaves what is attached to the nodes there are. -/
theorem built_treeOf {h : Heap} {calls : List (List CString × Nat)} (hb : Built h calls) :
    TreeOf h calls := by
  obtain ⟨kids, hg, hreturned, hall⟩ := hb.good
  refine ⟨?_, fun p a b hp => hp.node_unique hg, fun p q c hp => hp.path_unique hg, ?_, ?_, ?_,
    hreturned, ?_⟩
  · intro p hne
    constructor
    · rintro ⟨c, hp⟩
      exact (hall p c hp).resolve_left hne
    · rintro ⟨q, hq, hpre⟩
      exact (hreturned q hq).take hpre
  · intro c hpos hc
    obtain ⟨p, hp⟩ := IsNode.exists_path hg hc
    refine ⟨p, ?_, hp⟩
    rintro rfl
    have hzero : c = 0 := hp.node_unique hg .root
    omega
  · intro a cs hcs
    obtain rfl := hg.children_eq hcs
    exact hg.distinct a
  · intro a cs c hcs hc
    obtain rfl := hg.children_eq hcs
    exact (hg.parent a c hc).2
  · intro name hname
    obtain ⟨h', kids', c, hmake, -, hext, -⟩ :=
      makeParts_spec hg .root none fun hnil => absurd hnil hname
    exact ⟨h', c, hmake, hext.carries_eq⟩

/-- The text as a name. -/
def nodeName (s : String) : CString := CString.ofBuffer (CString.ascii s)

/-- A test that returns. -/
def emptyTest : Func := ⟨nodeName "/a/b.c", nodeName "test_t", .returned 0⟩

/-- The nodes of `/a/b`, with a test at the second, and of `a/c`. -/
def twoPaths : Heap :=
  [{ children := some 1 },
    { parent := some 0, children := some 2, data := { name := some (nodeName "a") } },
    { parent := some 1, next := some 3,
      data := { name := some (nodeName "b"), test := some emptyTest } },
    { parent := some 1, data := { name := some (nodeName "c") } }]

/-- Two paths, one of them twice. -/
theorem built_treeOf_twoPaths :
    TreeOf twoPaths [(components (nodeName "/a/b"), 2), (components (nodeName "a//b/"), 2),
      (components (nodeName "a/c"), 3)] := by
  have h₁ := Built.root.makePath (nodeName "/a/b") (by decide) rfl
  have h₂ := h₁.attach (a := 2) (by decide) (.function .test emptyTest)
  have h₃ := h₂.makePath (nodeName "a//b/") (by decide) rfl
  exact built_treeOf (h₃.makePath (nodeName "a/c") (by decide) rfl)

end NovaProva
