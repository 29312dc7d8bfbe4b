import NovaProva.Lib.Joined
import NovaProva.Tree.Combinations
import NovaProva.Tree.Detach

/-!
# Tree — Names

`testnode_t::get_fullname` and `find`: a test is printed as the names of the nodes down to it,
joined with dots, and a specification is looked up by comparing it with these texts in preorder.
The names come from directories and files and may have dots themselves, so that two nodes can be
printed alike; the first of them is then the only one that can be selected.

* `getFullname`, `find`, `addSpecs`: the code.
* `getFullname_eq`: what is printed of a node.
* `find_eq`: what is found.
* `addSpecs_selects_iff`: which nodes can be selected by what is printed of them.
* `Represents`: the trees discovery builds are trees of this model.
-/

namespace NovaProva

/-! ### Full names -/

/-- One turn of the loop of `get_fullname` above the node itself. -/
def prependName (full : List UInt8) (a : NodeData) : List UInt8 :=
  match a.name with
  | none   => full
  | some n => n.bytes ++ Filename.dot :: full

/-- `get_fullname`, of the node with the chain of parents `chain`. -/
def getFullname : List NodeData → List UInt8
  | []      => []
  | a :: up => up.foldl prependName ((a.name.map CString.bytes).getD [])

/-- The names of the nodes from the root down to the one with the chain `chain`. -/
def pathNames (chain : List NodeData) : List (List UInt8) :=
  (chain.filterMap fun a => a.name.map CString.bytes).reverse

/-- The names as they are printed. -/
def joined (names : List (List UInt8)) : List UInt8 := [Filename.dot].intercalate names

theorem joined_cons (n : List UInt8) {ns : List (List UInt8)} (hne : ns ≠ []) :
    n ++ Filename.dot :: joined ns = joined (n :: ns) := by
  cases ns with
  | nil => exact absurd rfl hne
  | cons m ns => simp [joined]

theorem foldl_prependName (up : List NodeData) {ns : List (List UInt8)} (hne : ns ≠ []) :
    up.foldl prependName (joined ns) = joined (pathNames up ++ ns) := by
  induction up generalizing ns with
  | nil => simp [pathNames]
  | cons a up ih =>
    cases hname : a.name with
    | none => simp [prependName, hname, ih hne, pathNames]
    | some n =>
      simp [prependName, hname, joined_cons n.bytes hne, ih (List.cons_ne_nil _ _), pathNames]

/-- **What is printed** of a node with a name. -/
theorem getFullname_eq {a : NodeData} {up : List NodeData} (hname : a.name.isSome) :
    getFullname (a :: up) = joined (pathNames (a :: up)) := by
  obtain ⟨n, hn⟩ := Option.isSome_iff_exists.mp hname
  have hone : joined [n.bytes] = n.bytes := by simp [joined]
  have hfold := foldl_prependName up (List.cons_ne_nil n.bytes [])
  rw [hone] at hfold
  simpa [getFullname, hn, pathNames] using hfold

/-! ### Looking up -/

mutual

/-- `find` on the node at `p`, which is `t`. -/
def findFrom (root : TestNode) (nm : List UInt8) (p : Ptr) : TestNode → Option Ptr
  | .mk d cs =>
    if d.name.isSome ∧ getFullname (root.chain p) = nm then some p
    else findAmong root nm p 0 cs

/-- The loop over the children, from the one at index `i` on. -/
def findAmong (root : TestNode) (nm : List UInt8) (p : Ptr) (i : Nat) :
    List TestNode → Option Ptr
  | []      => none
  | c :: cs =>
    match findFrom root nm (i :: p) c with
    | some q => some q
    | none   => findAmong root nm p (i + 1) cs

end

/-- `find` on the root. -/
def find (root : TestNode) (nm : List UInt8) : Option Ptr := findFrom root nm [] root

/-- `plan_t::add_specs`: whether all were found, and the nodes that were added. -/
def addSpecs (root : TestNode) : List (List UInt8) → Bool × List Ptr
  | []            => (true, [])
  | spec :: specs =>
    match find root spec with
    | none    => (false, [])
    | some tn => ((addSpecs root specs).1, tn :: (addSpecs root specs).2)

/-- What `list_tests` prints of a node. -/
def printed (root : TestNode) (p : Ptr) : List UInt8 := getFullname (root.chain p)

/-- The node at `p` has a name. -/
def Named (root : TestNode) (p : Ptr) : Prop := ∃ t, root.at? p = some t ∧ t.data.name.isSome

theorem named_iff (root : TestNode) (p : Ptr) :
    ((root.at? p).map fun t => t.data.name.isSome).getD false = true ↔ Named root p := by
  simp only [Named]
  cases root.at? p <;> simp

instance (root : TestNode) (p : Ptr) : Decidable (Named root p) :=
  decidable_of_iff _ (named_iff root p)

section Find

variable {root : TestNode} {nm : List UInt8}

/-- The node itself is looked at first. -/
theorem find?_named {p : Ptr} {d : NodeData} {cs : List TestNode}
    (ht : root.at? p = some (.mk d cs)) (ps : List Ptr) :
    (p :: ps).find? (fun q => Named root q ∧ printed root q = nm) =
      if d.name.isSome ∧ getFullname (root.chain p) = nm then some p
      else ps.find? fun q => Named root q ∧ printed root q = nm := by
  have hiff : (Named root p ∧ printed root p = nm) ↔
      (d.name.isSome ∧ getFullname (root.chain p) = nm) := by
    simp [Named, ht, printed, TestNode.data]
  rw [List.find?_cons]
  by_cases hp : Named root p ∧ printed root p = nm
  · rw [decide_eq_true hp, if_pos (hiff.mp hp)]
  · rw [decide_eq_false hp, if_neg (mt hiff.mpr hp)]

mutual

theorem findFrom_eq {p : Ptr} (t : TestNode) (ht : root.at? p = some t) :
    findFrom root nm p t =
      (TestNode.preorder p t).find? fun q => Named root q ∧ printed root q = nm := by
  match t, ht with
  | .mk d cs, ht =>
    rw [findFrom, TestNode.preorder, find?_named ht, findAmong_eq (i := 0) cs [] ht rfl]
termination_by sizeOf t

theorem findAmong_eq {p : Ptr} (cs pre : List TestNode) {d : NodeData}
    (ht : root.at? p = some (.mk d (pre ++ cs))) {i : Nat} (hi : pre.length = i) :
    findAmong root nm p i cs =
      (TestNode.preorderList p i cs).find? fun q => Named root q ∧ printed root q = nm := by
  match cs, ht with
  | [], ht => rw [findAmong, TestNode.preorderList, List.find?_nil]
  | c :: cs, ht =>
    have hc : root.at? (i :: p) = some c := by simp [TestNode.at?, ht, TestNode.children, ← hi]
    rw [findAmong, TestNode.preorderList, List.find?_append, findFrom_eq c hc,
      findAmong_eq cs (pre ++ [c]) (by simpa using ht) (by simp [hi])]
    cases (TestNode.preorder (i :: p) c).find? fun q => Named root q ∧ printed root q = nm <;> rfl
termination_by sizeOf cs

end

/-- **What is found**: the first node in preorder of which the text is printed. -/
theorem find_eq (root : TestNode) (nm : List UInt8) :
    find root nm =
      (TestNode.preorder [] root).find? fun q => Named root q ∧ printed root q = nm :=
  findFrom_eq root rfl

end Find

/-! ### Selecting a node -/

/-- The node at `q` is looked at before the one at `p`. -/
def Earlier (root : TestNode) (q p : Ptr) : Prop :=
  ∃ pre post, TestNode.preorder [] root = pre ++ p :: post ∧ q ∈ pre

/-- The names of the nodes from the root down to `p`. -/
def namesTo (root : TestNode) (p : Ptr) : List (List UInt8) := pathNames (root.chain p)

/-- What is printed of the node selects the node. -/
def Selects (root : TestNode) (p : Ptr) : Prop :=
  find root (printed root p) = some p ∧ addSpecs root [printed root p] = (true, [p])

theorem chain_eq {root : TestNode} {p : Ptr} {t : TestNode} (ht : root.at? p = some t) :
    ∃ up, root.chain p = t.data :: up := by
  cases p with
  | nil =>
    obtain rfl : root = t := Option.some.inj ht
    exact ⟨[], rfl⟩
  | cons i up => exact ⟨root.chain up, by simp [TestNode.chain, ht]⟩

theorem printed_eq {root : TestNode} {p : Ptr} (hp : Named root p) :
    printed root p = joined (namesTo root p) := by
  obtain ⟨t, ht, hname⟩ := hp
  obtain ⟨up, hchain⟩ := chain_eq ht
  rw [printed, namesTo, hchain, getFullname_eq hname]

theorem addSpecs_singleton (root : TestNode) (spec : List UInt8) (p : Ptr) :
    addSpecs root [spec] = (true, [p]) ↔ find root spec = some p := by
  cases hfind : find root spec <;> simp [addSpecs, hfind]

/-- A node has one place in the walk. -/
theorem eq_of_split {pre pre' post post' : List Ptr} {p : Ptr} (hnodup : (pre ++ p :: post).Nodup)
    (h : pre ++ p :: post = pre' ++ p :: post') : pre = pre' := by
  have hmem : p ∉ pre := fun hp =>
    (List.nodup_append.mp hnodup).2.2 p hp p List.mem_cons_self rfl
  have hmem' : p ∉ pre' := fun hp =>
    (List.nodup_append.mp (h ▸ hnodup)).2.2 p hp p List.mem_cons_self rfl
  have hidx := congrArg (List.idxOf p) h
  rw [List.idxOf_append_of_notMem hmem, List.idxOf_append_of_notMem hmem'] at hidx
  exact (List.append_inj h (by simpa using hidx)).1

/-- **What is printed of a node selects it exactly if** no node before it in preorder has names
that are the same once they are joined. -/
theorem addSpecs_selects_iff (root : TestNode) (p : Ptr) (hp : Named root p) :
    Selects root p ↔
      ∀ q, Named root q → Earlier root q p →
        joined (namesTo root q) ≠ joined (namesTo root p) := by
  have hmem : p ∈ TestNode.preorder [] root := by
    obtain ⟨t, ht, -⟩ := hp
    exact (TestNode.mem_preorder rfl).mpr ⟨List.nil_suffix, by simp [ht]⟩
  rw [Selects, addSpecs_singleton, and_self, find_eq, List.find?_eq_some_iff_append]
  simp only [decide_eq_true_eq, Bool.not_eq_true', decide_eq_false_iff_not, not_and]
  constructor
  · rintro ⟨-, pre, post, hsplit, hbefore⟩ q hq ⟨pre', post', hsplit', hq'⟩
    have hpre : pre = pre' := by
      have hnodup := TestNode.nodup_preorder [] root
      rw [hsplit] at hsplit' hnodup
      exact eq_of_split hnodup hsplit'
    rw [← printed_eq hq, ← printed_eq hp]
    exact hbefore q (hpre ▸ hq') hq
  · intro h
    obtain ⟨pre, post, hsplit⟩ := List.append_of_mem hmem
    refine ⟨⟨hp, trivial⟩, pre, post, hsplit, fun q hq hnamed => ?_⟩
    rw [printed_eq hnamed, printed_eq hp]
    exact h q hnamed ⟨pre, post, hsplit, hq⟩

/-! ### The trees of discovery -/

/-- The node `a` in memory, with everything below it, is `t`. -/
inductive Represents (h : Heap) : Nat → TestNode → Prop where
  | mk {a : Nat} {cell : Cell} {cs : List Nat} {ts : List TestNode} (hcell : h[a]? = some cell)
      (hcs : Children h a cs) (hlen : cs.length = ts.length)
      (hts : ∀ (i c : Nat) (t : TestNode), cs[i]? = some c → ts[i]? = some t → Represents h c t) :
      Represents h a (.mk cell.data ts)

/-- From a node on, children come after their parents, so that there is a tree. -/
theorem exists_represents {h : Heap} {kids : Nat → List Nat} {lo a : Nat}
    (hkids : ∀ a, lo ≤ a → a < h.length → Children h a (kids a) ∧
      ∀ c ∈ kids a, a < c ∧ c < h.length) (hlo : lo ≤ a) (ha : a < h.length) :
    ∃ t, Represents h a t := by
  induction hn : h.length - a using Nat.strong_induction_on generalizing a with
  | h n ih =>
    obtain ⟨hcs, hlater⟩ := hkids a hlo ha
    obtain ⟨cell, hcell⟩ : ∃ cell, h[a]? = some cell := ⟨_, List.getElem?_eq_getElem ha⟩
    have hall : ∀ c ∈ kids a, ∃ t, Represents h c t := by
      intro c hc
      obtain ⟨hlt, hlt'⟩ := hlater c hc
      exact ih (h.length - c) (by omega) (by omega) hlt' rfl
    choose f hf using hall
    refine ⟨.mk cell.data ((kids a).attach.map fun c => f c.1 c.2), .mk hcell hcs (by simp) ?_⟩
    intro i c t hc ht
    simp only [List.getElem?_map, Option.map_eq_some_iff] at ht
    obtain ⟨x, hx, rfl⟩ := ht
    have hxc : x.1 = c := by
      have hval := congrArg (Option.map Subtype.val) hx
      rw [← List.getElem?_map, List.attach_map_subtype_val, hc] at hval
      exact (Option.some.inj hval).symm
    subst hxc
    exact hf x.1 x.2

/-- Whatever discovery builds, what is left once the common part was cut off is a tree. -/
theorem represents_detached {h : Heap} {calls : List (List CString × Nat)} (hb : Built h calls) :
    ∃ h' tn t, detachCommon h = .ok (h', tn) ∧ Represents h' tn t := by
  obtain ⟨kids, hg, -, -⟩ := hb.good
  obtain ⟨tn, htn, ⟨-, hcode⟩ | ⟨p, hkids, hcode⟩⟩ := detachCommon_cases hg
  · have hall : ∀ a, 0 ≤ a → a < h.length → Children h a (kids a) ∧
        ∀ c ∈ kids a, a < c ∧ c < h.length := fun a _ ha =>
      ⟨hg.children a ha, fun c hc => ⟨(hg.parent a c hc).1, hg.lt hc⟩⟩
    obtain ⟨t, ht⟩ := exists_represents hall (Nat.zero_le tn) (htn.lt hg)
    exact ⟨h, tn, t, hcode, ht⟩
  · -- only the node above lost its children
    have hlt := (hg.parent p tn (hkids ▸ List.mem_cons_self)).1
    have hall : ∀ a, tn ≤ a → a < (cutHeap h p tn).length →
        Children (cutHeap h p tn) a (kids a) ∧
          ∀ c ∈ kids a, a < c ∧ c < (cutHeap h p tn).length := by
      intro a hle ha
      rw [length_cutHeap] at ha ⊢
      refine ⟨?_, fun c hc => ⟨(hg.parent a c hc).1, hg.lt hc⟩⟩
      rw [Children, childrenOf_cutHeap_ne (by omega), nextOf_cutHeap]
      exact hg.children a ha
    obtain ⟨t, ht⟩ := exists_represents hall (Nat.le_refl tn) (by simpa using htn.lt hg)
    exact ⟨_, tn, t, hcode, ht⟩

/-- The tests `t` of the files `/a.b.c` and `/a/b.c`. -/
def dottedHeap : Heap :=
  [{ children := some 1 },
    { parent := some 0, next := some 3, children := some 2,
      data := { name := some (nodeName "a.b") } },
    { parent := some 1, data := { name := some (nodeName "t"), test := some emptyTest } },
    { parent := some 0, children := some 4, data := { name := some (nodeName "a") } },
    { parent := some 3, children := some 5, data := { name := some (nodeName "b") } },
    { parent := some 4, data := { name := some (nodeName "t"), test := some emptyTest } }]

/-- Two tests with one full name, in different nodes. -/
def dottedTree : TestNode :=
  .mk {} [
    .mk { name := some (nodeName "a.b") } [
      .mk { name := some (nodeName "t"), test := some emptyTest } []],
    .mk { name := some (nodeName "a") } [
      .mk { name := some (nodeName "b") } [
        .mk { name := some (nodeName "t"), test := some emptyTest } []]]]

theorem built_dottedHeap :
    Built dottedHeap
      [(components (nodeName "/a.b/t"), 2), (components (nodeName "/a/b/t"), 5)] := by
  have h₁ := Built.root.makePath (nodeName "/a.b/t") (by decide) rfl
  have h₂ := h₁.attach (a := 2) (by decide) (.function .test emptyTest)
  have h₃ := h₂.makePath (nodeName "/a/b/t") (by decide) rfl
  exact h₃.attach (a := 5) (by decide) (.function .test emptyTest)

theorem represents_leaf {h : Heap} {a : Nat} {cell : Cell} (hcell : h[a]? = some cell)
    (hc : cell.children = none) : Represents h a (.mk cell.data []) := by
  have hchildren : h.childrenOf a = some none := by simp [Heap.childrenOf, hcell, hc]
  exact .mk hcell ⟨none, hchildren, .nil⟩ rfl fun i c t hi => by simp at hi

theorem represents_one {h : Heap} {a c : Nat} {cell child : Cell} {t : TestNode}
    (hcell : h[a]? = some cell) (hc : cell.children = some c) (hchild : h[c]? = some child)
    (hnext : child.next = none) (ht : Represents h c t) : Represents h a (.mk cell.data [t]) := by
  have hchildren : h.childrenOf a = some (some c) := by simp [Heap.childrenOf, hcell, hc]
  have hlast : h.nextOf c = some none := by simp [Heap.nextOf, hchild, hnext]
  refine .mk hcell ⟨_, hchildren, .cons hlast .nil⟩ rfl fun i d u hi hu => ?_
  cases i with
  | zero =>
    obtain rfl : c = d := by simpa using hi
    obtain rfl : t = u := by simpa using hu
    exact ht
  | succ i => simp at hi

theorem represents_dottedTree : Represents dottedHeap 0 dottedTree := by
  have hab : Represents dottedHeap 1 _ :=
    represents_one rfl rfl rfl rfl (represents_leaf rfl rfl)
  have ha : Represents dottedHeap 3 _ :=
    represents_one rfl rfl rfl rfl (represents_one rfl rfl rfl rfl (represents_leaf rfl rfl))
  have hroot : dottedHeap[0]? = some { children := some 1 } := rfl
  have hcs : Children dottedHeap 0 [1, 3] := ⟨_, rfl, .cons rfl (.cons rfl .nil)⟩
  rw [dottedTree]
  refine .mk hroot hcs rfl fun i c t hc ht => ?_
  rcases i with _ | _ | i
  · obtain rfl : 1 = c := by simpa using hc
    obtain rfl := Option.some.inj ht
    exact hab
  · obtain rfl : 3 = c := by simpa using hc
    obtain rfl := Option.some.inj ht
    exact ha
  · simp at hc

/-- Both tests are printed as `a.b.t`, and that is the first one only. -/
theorem addSpecs_selects_other :
    Built dottedHeap [(components (nodeName "/a.b/t"), 2), (components (nodeName "/a/b/t"), 5)] ∧
      detachCommon dottedHeap = .ok (dottedHeap, 0) ∧ Represents dottedHeap 0 dottedTree ∧
      Named dottedTree [0, 0, 1] ∧
      addSpecs dottedTree [printed dottedTree [0, 0, 1]] = (true, [[0, 0]]) ∧
      ¬ Selects dottedTree [0, 0, 1] := by
  refine ⟨built_dottedHeap, rfl, represents_dottedTree, by decide, by decide, ?_⟩
  rintro ⟨hfind, -⟩
  exact absurd hfind (by decide)

theorem addSpecs_selects_first : Named dottedTree [0, 0] ∧ Selects dottedTree [0, 0] := by
  have hnamed : Named dottedTree [0, 0] := by decide
  refine ⟨hnamed, (addSpecs_selects_iff dottedTree [0, 0] hnamed).mpr ?_⟩
  rintro q hq ⟨pre, post, hsplit, hmem⟩
  have hpre : pre = [[], [0]] := (eq_of_split (by decide) hsplit).symm
  rw [hpre] at hmem
  rcases List.mem_cons.mp hmem with rfl | hmem
  · exact absurd hq (by decide)
  · rw [List.mem_singleton.mp hmem]
    decide

end NovaProva
