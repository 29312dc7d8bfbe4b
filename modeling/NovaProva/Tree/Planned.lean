import NovaProva.Tree.Discovery

/-!
# Tree — Planned

`testmanager_t::instance` and the plan of a runner that is given none: from the functions of a
program to what is run.

The tree that is planned is the one discovery built, less the nodes that were cut off above it, and
with the intercepts of the library itself at its root.  A test is told by the components of its
node (`pathTo`), which are those cut off and the names from the root down.

* `testmanagerInstance`: discovery, the cut, and `setup_builtin_intercepts`.
* `PointsTo`: the node in memory that a pointer into the tree stands for.
* `Severed`: what the cut leaves as it was.
* `discovered_tests_planned`: which tests are run, how often, and with what around them.
-/

namespace NovaProva

/-! ### The code -/

/-- The functions that `init_syslog_intercepts` and `init_exit_intercepts` name. -/
structure Builtins where
  syslog : Nat
  mockSyslog : Nat
  syslogChk : Nat
  mockSyslogChk : Nat
  exit : Nat
  mockExit : Nat

/-- `add_mock` of two addresses. -/
def addMock (h : Heap) (tn : Nat) (r : Redirection) : Heap :=
  h.modify tn fun cell => (Attachment.mock r).attach cell

/-- `init_syslog_intercepts`, with the GNU library. -/
def initSyslogIntercepts (b : Builtins) : List Redirection :=
  [⟨b.syslog, some (.ofBuffer (CString.ascii "syslog")), b.mockSyslog⟩,
    ⟨b.syslogChk, some (.ofBuffer (CString.ascii "__syslog_chk")), b.mockSyslogChk⟩]

/-- `init_exit_intercepts`. -/
def initExitIntercepts (b : Builtins) : List Redirection :=
  [⟨b.exit, some (.ofBuffer (CString.ascii "exit")), b.mockExit⟩]

/-- The redirections of the root, for `syslog` and for `exit`. -/
def Builtins.intercepts (b : Builtins) : List Redirection :=
  initSyslogIntercepts b ++ initExitIntercepts b

/-- `setup_builtin_intercepts`. -/
def setupBuiltinIntercepts (b : Builtins) (h : Heap) (root : Nat) : Heap :=
  b.intercepts.foldl (addMock · root) h

/-- What ends `instance` other than its return. -/
inductive InstanceError where
  | discovery (e : DiscoveryError)
  | detach (e : DetachError)
  deriving DecidableEq

/-- `instance`, when there is none yet: the nodes, and `root_`. -/
def testmanagerInstance (units : List (List Reflected)) (b : Builtins) :
    Except InstanceError (Heap × Nat) :=
  match discoverFunctions units with
  | .error e => .error (.discovery e)
  | .ok (h, _) =>
    match detachCommon h with
    | .error e        => .error (.detach e)
    | .ok (h', root)  => .ok (setupBuiltinIntercepts b h' root, root)

/-! ### Nodes of the tree and nodes in memory -/

/-- The node in memory at the pointer `p` into the tree below `a`. -/
inductive PointsTo (h : Heap) (a : Nat) : Ptr → Nat → Prop where
  | root : PointsTo h a [] a
  | child {p : Ptr} {b c i : Nat} {cs : List Nat} (hp : PointsTo h a p b) (hcs : Children h b cs)
      (hc : cs[i]? = some c) : PointsTo h a (i :: p) c

section PointsTo

variable {h h' : Heap} {a b c : Nat} {p : Ptr} {t : TestNode}

theorem Children.unique {cs ds : List Nat} (hcs : Children h a cs) (hds : Children h a ds) :
    cs = ds := by
  obtain ⟨start, hstart, hl⟩ := hcs
  obtain ⟨start', hstart', hl'⟩ := hds
  rw [hstart] at hstart'
  obtain rfl := Option.some.inj hstart'
  exact hl.unique hl'

/-- A pointer stands for one node. -/
theorem PointsTo.node_unique (hb : PointsTo h a p b) (hc : PointsTo h a p c) : b = c := by
  induction hb generalizing c with
  | root => cases hc; rfl
  | child hp hcs hi ih =>
      cases hc with
      | child hp' hcs' hi' =>
          obtain rfl := ih hp'
          obtain rfl := hcs.unique hcs'
          exact Option.some.inj (hi.symm.trans hi')

theorem PointsTo.isBelow (hp : PointsTo h a p c) : Below h a c := by
  induction hp with
  | root => exact .refl
  | child _ hcs hc ih => exact ih.child hcs (List.mem_of_getElem? hc)

theorem Below.pointsTo (hc : Below h a c) : ∃ p, PointsTo h a p c := by
  induction hc with
  | refl => exact ⟨[], .root⟩
  | child _ hcs hc ih =>
      obtain ⟨p, hp⟩ := ih
      obtain ⟨i, hi⟩ := List.mem_iff_getElem?.mp hc
      exact ⟨i :: p, hp.child hcs hi⟩

/-- What is found at a pointer into the tree. -/
theorem PointsTo.represents (hp : PointsTo h a p c) (ht : Represents h a t) :
    ∃ u, t.at? p = some u ∧ Represents h c u := by
  induction hp with
  | root => exact ⟨t, rfl, ht⟩
  | @child p b c i cs hp hcs hc ih =>
      obtain ⟨u, hu, hb⟩ := ih
      cases hb with
      | @mk _ cell ds ts hcell hds hlen hts =>
          obtain rfl := hcs.unique hds
          have hi : i < ts.length := hlen ▸ (List.getElem?_eq_some_iff.mp hc).1
          refine ⟨ts[i], ?_, hts i c _ hc (List.getElem?_eq_getElem hi)⟩
          simp [TestNode.at?, hu, TestNode.children, hi]

/-- Every node of the tree is one in memory. -/
theorem Represents.pointsTo (ht : Represents h a t) {u : TestNode} (hu : t.at? p = some u) :
    ∃ c, PointsTo h a p c := by
  induction p generalizing u with
  | nil => exact ⟨a, .root⟩
  | cons i p ih =>
      obtain ⟨v, hv, hchild⟩ := Option.bind_eq_some_iff.mp hu
      obtain ⟨b, hb⟩ := ih hv
      obtain ⟨v', hv', hrep⟩ := hb.represents ht
      obtain rfl := Option.some.inj (hv.symm.trans hv')
      cases hrep with
      | @mk _ cell cs ts hcell hcs hlen hts =>
          have hi : i < cs.length := hlen ▸ (List.getElem?_eq_some_iff.mp hchild).1
          exact ⟨cs[i], hb.child hcs (List.getElem?_eq_getElem hi)⟩

/-- What the node at a pointer carries. -/
theorem PointsTo.data (hp : PointsTo h a p c) (ht : Represents h a t) :
    ∃ u cell, t.at? p = some u ∧ h[c]? = some cell ∧ u.data = cell.data := by
  obtain ⟨u, hu, hrep⟩ := hp.represents ht
  cases hrep with
  | mk hcell => exact ⟨_, _, hu, hcell, rfl⟩

end PointsTo

/-! ### What the cut leaves -/

/-- `h'` is `h` after `tn` was cut off below the nodes `bs`, which carry nothing. -/
structure Severed (h h' : Heap) (tn : Nat) (bs : List Nat) : Prop where
  length_eq : h'.length = h.length
  next_eq : h'.nextOf = h.nextOf
  carries_eq : h'.carries = h.carries
  children_eq : ∀ b, tn ≤ b → h'.childrenOf b = h.childrenOf b
  parent_eq : ∀ b, b ≠ tn → h'.parentOf b = h.parentOf b
  root : h'.parentOf tn = some none
  above : Links h.parentOf (some tn) (tn :: bs)
  bare : ∀ b ∈ bs, ∃ cell, h[b]? = some cell ∧ cell.Bare
  carriers : ∀ c cell, h[c]? = some cell → ¬ cell.Bare → Below h tn c

theorem detachCommon_severed {h : Heap} {kids : Nat → List Nat} (hg : Good h kids) :
    ∃ h' tn bs, detachCommon h = .ok (h', tn) ∧ Severed h h' tn bs := by
  obtain ⟨tn, htn, hcases⟩ := detachCommon_cases hg
  obtain ⟨bs, hbs, hbare⟩ := htn.parents_bare hg
  have hcarriers : ∀ c cell, h[c]? = some cell → ¬ cell.Bare → Below h tn c := by
    intro c cell hc hcarries
    refine (htn.below_or_bare hg (List.getElem?_eq_some_iff.mp hc).1).resolve_right ?_
    rintro ⟨cell', hcell', hb⟩
    rw [hc] at hcell'
    exact hcarries (Option.some.inj hcell' ▸ hb)
  rcases hcases with ⟨hroot, hcode⟩ | ⟨p, hkids, hcode⟩
  · exact ⟨h, tn, bs, hcode, rfl, rfl, rfl, fun _ _ => rfl, fun _ _ => rfl, hroot, hbs, hbare,
      hcarriers⟩
  · have hlt := (hg.parent p tn (hkids ▸ List.mem_cons_self)).1
    refine ⟨cutHeap h p tn, tn, bs, hcode, length_cutHeap .., nextOf_cutHeap .., carries_cutHeap ..,
      fun b hb => childrenOf_cutHeap_ne (by omega), fun b hb => parentOf_cutHeap_ne hb,
      parentOf_cutHeap_self (htn.lt hg), hbs, hbare, hcarriers⟩

/-- The parents of a node below `tn`: those below it as well, and then those of `tn`, whatever these
are. -/
theorem Below.line {h : Heap} {kids : Nat → List Nat} {tn c : Nat} (hg : Good h kids)
    (hc : Below h tn c) :
    ∃ as, tn ∉ as ∧ ∀ (parentOf : Nat → Option (Option Nat)) (rest : List Nat),
      (∀ b, b ≠ tn → parentOf b = h.parentOf b) → Links parentOf (some tn) rest →
        Links parentOf (some c) (as ++ rest) := by
  induction hc with
  | refl => exact ⟨[], List.not_mem_nil, fun _ _ _ hl => hl⟩
  | @child b c cs hb hcs hc ih =>
      obtain rfl := hg.children_eq hcs
      obtain ⟨as, hnot, hline⟩ := ih
      obtain ⟨hlt, hparent⟩ := hg.parent b c hc
      have hne : c ≠ tn := Nat.ne_of_gt (Nat.lt_of_le_of_lt (hb.le hg) hlt)
      refine ⟨c :: as, ?_, fun parentOf rest heq hl => ?_⟩
      · rw [List.mem_cons, not_or]
        exact ⟨hne.symm, hnot⟩
      · exact .cons ((heq c hne).trans hparent) (hline parentOf rest heq hl)

/-! ### The intercepts of the library -/

section Builtin

variable {h : Heap} {tn : Nat} {b : Builtins}

theorem foldl_addMock (rs : List Redirection) (h : Heap) (tn : Nat) :
    rs.foldl (addMock · tn) h =
      h.modify tn fun cell => { cell with intercepts := cell.intercepts ++ rs } := by
  induction rs generalizing h with
  | nil =>
      simp only [List.append_nil]
      exact (List.modify_id tn h).symm
  | cons r rs ih =>
      rw [List.foldl_cons, ih, addMock, List.modify_modify_eq]
      congr 1
      funext cell
      simp [Attachment.attach]

theorem sameLinks_setupBuiltin (b : Builtins) (h : Heap) (tn : Nat) :
    SameLinks h (setupBuiltinIntercepts b h tn) := by
  rw [setupBuiltinIntercepts, foldl_addMock]
  refine sameLinks_modify ?_ ?_ ?_ ?_ h tn <;> exact fun _ => rfl

theorem carries_setupBuiltin_ne {c : Nat} (hc : c ≠ tn) :
    (setupBuiltinIntercepts b h tn).carries c = h.carries c := by
  rw [setupBuiltinIntercepts, foldl_addMock]
  simp [Heap.carries, Ne.symm hc]

theorem carries_setupBuiltin_self :
    (setupBuiltinIntercepts b h tn).carries tn =
      (h.carries tn).map fun x => (x.1, x.2 ++ b.intercepts) := by
  rw [setupBuiltinIntercepts, foldl_addMock]
  simp [Heap.carries, Function.comp_def]

end Builtin

/-! ### The line of a node -/

section Line

variable {decls : List (List CString × Attachment)} {h h' : Heap} {kids : Nat → List Nat}
  {p q : List CString} {tn c : Nat} {bs : List Nat}

/-- The nodes from one up to the root carry what is declared along its path. -/
theorem lineage_discovered (hg : Good h kids)
    (hcontent : ∀ p c, IsNode h p c → h.carries c = some (content decls p)) (hp : IsNode h p c) :
    ∃ as, Links h.parentOf (some c) as ∧
      as.filterMap h.carries = p.inits.reverse.map (content decls) := by
  induction hp with
  | root =>
      refine ⟨[0], .cons hg.root .nil, ?_⟩
      simp [hcontent [] 0 .root]
  | @child p a c cs name hp hcs hc hname ih =>
      obtain rfl := hg.children_eq hcs
      obtain ⟨as, hl, has⟩ := ih
      refine ⟨c :: as, .cons (hg.parent a c hc).2 hl, ?_⟩
      rw [List.filterMap_cons, hcontent _ c (hp.of_mem hg hc hname), has]
      simp [List.inits_append]

/-- The names along a path are its components. -/
theorem filterMap_getLast?_inits {α : Type*} (p : List α) :
    p.inits.filterMap List.getLast? = p := by
  induction p using List.reverseRecOn with
  | nil => rfl
  | append_singleton p a ih => simp [List.inits_append, ih]

/-- The chain of a pointer is what the parents of its node carry. -/
theorem PointsTo.chain {a : Nat} {ptr : Ptr} {t : TestNode} (hp : PointsTo h a ptr c)
    (ht : Represents h a t) (hroot : h.parentOf a = some none)
    (hparent : ∀ b cs d, Below h a b → Children h b cs → d ∈ cs → h.parentOf d = some (some b)) :
    ∃ as, Links h.parentOf (some c) as ∧
      (as.filterMap h.carries).map Prod.fst = t.chain ptr := by
  induction hp with
  | root =>
      cases ht with
      | mk hcell => exact ⟨[a], .cons hroot .nil, by simp [Heap.carries, hcell, TestNode.chain,
          TestNode.data]⟩
  | @child ptr b c i cs hp hcs hc ih =>
      obtain ⟨as, hl, has⟩ := ih
      obtain ⟨u, cell, hu, hcell, hdata⟩ := (hp.child hcs hc).data ht
      have hlink := hparent b cs c hp.isBelow hcs (List.mem_of_getElem? hc)
      refine ⟨c :: as, .cons hlink hl, ?_⟩
      simp [TestNode.chain, hu, hdata, Heap.carries, hcell, has.symm]

/-- Where the children were not touched, nodes below are the same. -/
theorem Below.of_severed (hg : Good h kids) (hs : Severed h h' tn bs) (hc : Below h' tn c) :
    Below h tn c := by
  induction hc with
  | refl => exact .refl
  | child _ hcs hc ih =>
      refine ih.child ?_ hc
      rwa [Children, ← hs.children_eq _ (ih.le hg), ← hs.next_eq]

theorem Below.to_severed (hg : Good h kids) (hs : Severed h h' tn bs) (hc : Below h tn c) :
    Below h' tn c := by
  induction hc with
  | refl => exact .refl
  | child hb hcs hc ih =>
      refine ih.child ?_ hc
      rwa [Children, hs.children_eq _ (hb.le hg), hs.next_eq]

theorem SameLinks.below (hs : SameLinks h h') {a : Nat} (hc : Below h a c) : Below h' a c := by
  induction hc with
  | refl => exact .refl
  | child _ hcs hc ih => exact ih.child (hs.children hcs) hc

/-- What the nodes above a node carry, in the tree that was built and in the one that is planned:
the same, but for the nodes that were cut off and the intercepts at the new root. -/
theorem exists_lines {b : Builtins} {t : TestNode} {ptr : Ptr} (hg : Good h kids)
    (hcontent : ∀ p c, IsNode h p c → h.carries c = some (content decls p))
    (hs : Severed h h' tn bs) (ht : Represents (setupBuiltinIntercepts b h' tn) tn t)
    (hp : PointsTo (setupBuiltinIntercepts b h' tn) tn ptr c) (hq : IsNode h q c) :
    ∃ line x, q.inits.reverse.map (content decls) = line ++ x :: bs.filterMap h.carries ∧
      t.chain ptr = (line ++ [x]).map Prod.fst ∧
      lineage (setupBuiltinIntercepts b h' tn) c =
        some (line ++ [(x.1, x.2 ++ b.intercepts)]) := by
  have hsame := sameLinks_setupBuiltin b h' tn
  have hbelow := Below.of_severed hg hs (hsame.symm.below hp.isBelow)
  obtain ⟨as, hnot, hline⟩ := hbelow.line hg
  have hold := hline _ _ (fun _ _ => rfl) hs.above
  have hnew : Links (setupBuiltinIntercepts b h' tn).parentOf (some c) (as ++ [tn]) := by
    refine hline _ _ (fun d hd => ?_) ?_
    · rw [hsame.parent_eq, hs.parent_eq d hd]
    · exact .cons (hsame.parent_eq ▸ hs.root) .nil
  -- what they carry
  obtain ⟨x, hx⟩ : ∃ x, h.carries tn = some x := by
    obtain ⟨p, hp⟩ := IsNode.exists_path hg (Nat.lt_of_le_of_lt (hbelow.le hg) (hq.lt hg))
    exact ⟨_, hcontent p tn hp⟩
  have hcarries : ∀ d, d ≠ tn → (setupBuiltinIntercepts b h' tn).carries d = h.carries d :=
    fun d hd => (carries_setupBuiltin_ne hd).trans (congrFun hs.carries_eq d)
  have has : as.filterMap (setupBuiltinIntercepts b h' tn).carries = as.filterMap h.carries :=
    List.filterMap_congr fun d hd => hcarries d fun heq => hnot (heq ▸ hd)
  have hself : (setupBuiltinIntercepts b h' tn).carries tn = some (x.1, x.2 ++ b.intercepts) := by
    rw [carries_setupBuiltin_self, hs.carries_eq, hx, Option.map_some]
  have hnewline : (as ++ [tn]).filterMap (setupBuiltinIntercepts b h' tn).carries =
      as.filterMap h.carries ++ [(x.1, x.2 ++ b.intercepts)] := by
    simp [has, hself]
  refine ⟨as.filterMap h.carries, x, ?_, ?_, ?_⟩
  · obtain ⟨cs, hcs, hpath⟩ := lineage_discovered hg hcontent hq
    rw [← hpath, hcs.unique hold, List.filterMap_append, List.filterMap_cons_some hx]
  · obtain ⟨cs, hcs, hchain⟩ := hp.chain ht (hsame.parent_eq ▸ hs.root) fun d ds e hd hds he => by
      have hd' := Below.of_severed hg hs (hsame.symm.below hd)
      have hds' : Children h d ds := by
        have hchildren := hsame.symm.children hds
        rwa [Children, hs.children_eq d (hd'.le hg), hs.next_eq] at hchildren
      obtain rfl := hg.children_eq hds'
      obtain ⟨hlt, hparent⟩ := hg.parent d e he
      have hne : e ≠ tn := Nat.ne_of_gt (Nat.lt_of_le_of_lt (hd'.le hg) hlt)
      rw [hsame.parent_eq, hs.parent_eq e hne, hparent]
    rw [← hchain, hcs.unique hnew, hnewline]
    simp
  · obtain ⟨cs, hcs, hlen⟩ := exists_parents hg (hq.lt hg)
    have hlength : (as ++ [tn]).length ≤ (setupBuiltinIntercepts b h' tn).length := by
      rw [hcs.unique hold] at hlen
      have hlt := hq.lt hg
      rw [hsame.length_eq, hs.length_eq]
      simp only [List.length_append, List.length_cons, List.length_nil] at hlen ⊢
      omega
    rw [lineage_eq hnew hlength, hnewline]

end Line

/-! ### What is planned -/

/-- The components of the node at a pointer: those that were cut off, and the names from the root
down. -/
def pathTo (above : List CString) (t : TestNode) (ptr : Ptr) : List CString :=
  above ++ ((t.chain ptr).filterMap (·.name)).reverse

section Along

variable (decls : List (List CString × Attachment)) (q : List CString)

/-- The first setup functions declared along a path, rootmost first. -/
def setupsAlong : List Func := q.inits.filterMap (firstAt decls .before)

/-- The first teardown functions, leafmost first. -/
def teardownsAlong : List Func := q.inits.reverse.filterMap (firstAt decls .after)

/-- The parameters declared along a path, leafmost first. -/
def parametersAlong : List Parameter :=
  q.inits.reverse.flatMap fun p => (declaredAt decls p).filterMap Attachment.parameter?

/-- The mocks, leafmost first. -/
def mocksAlong : List Redirection :=
  q.inits.reverse.flatMap fun p => (declaredAt decls p).filterMap Attachment.mock?

end Along

/-- What is around the node at a pointer is what is declared along its path, and the intercepts of
the library behind that. -/
structure Surrounded (decls : List (List CString × Attachment)) (b : Builtins) (h : Heap)
    (root : Nat) (t : TestNode) (ptr : Ptr) (q : List CString) : Prop where
  setups : getFixtures (t.chain ptr) .before = setupsAlong decls q
  teardowns : getFixtures (t.chain ptr) .after = teardownsAlong decls q
  parameters : t.parameters ptr = parametersAlong decls q
  intercepts : ∃ c, PointsTo h root ptr c ∧
    interceptsAt h c = some (mocksAlong decls q ++ b.intercepts)

section Planned

variable {decls : List (List CString × Attachment)} {h h' : Heap} {kids : Nat → List Nat}
  {q : List CString} {tn c : Nat} {bs : List Nat} {b : Builtins} {t : TestNode} {ptr : Ptr}

theorem surrounded (hg : Good h kids)
    (hcontent : ∀ p c, IsNode h p c → h.carries c = some (content decls p))
    (hs : Severed h h' tn bs) (ht : Represents (setupBuiltinIntercepts b h' tn) tn t)
    (hp : PointsTo (setupBuiltinIntercepts b h' tn) tn ptr c) (hq : IsNode h q c) :
    Surrounded decls b (setupBuiltinIntercepts b h' tn) tn t ptr q ∧
      pathTo (((bs.filterMap h.carries).filterMap fun x => x.1.name).reverse) t ptr = q := by
  obtain ⟨line, x, hbuilt, hchain, hline⟩ := exists_lines hg hcontent hs ht hp hq
  have hbare : ∀ y ∈ bs.filterMap h.carries, Bare y.1 y.2 := by
    intro y hy
    obtain ⟨d, hd, hcarries⟩ := List.mem_filterMap.mp hy
    obtain ⟨cell, hcell, hbare⟩ := hs.bare d hd
    obtain rfl : (cell.data, cell.intercepts) = y := by simpa [Heap.carries, hcell] using hcarries
    exact hbare
  have hall : q.inits.reverse.map (content decls) = (line ++ [x]) ++ bs.filterMap h.carries := by
    rw [hbuilt, List.append_assoc, List.singleton_append]
  obtain ⟨hbefore, hafter, hassign, hicepts⟩ := collected_of_bare (line ++ [x]) hbare
  rw [← hall, ← hchain] at hbefore hafter hassign
  rw [← hall] at hicepts
  refine ⟨⟨?_, ?_, ?_, c, hp, ?_⟩, ?_⟩
  · rw [← hbefore, getFixtures_before, setupsAlong]
    simp [List.filterMap_map, Function.comp_def, content]
  · rw [← hafter, getFixtures_after, teardownsAlong]
    simp [List.filterMap_map, Function.comp_def, content]
  · have hparams := congrArg (List.map (·.param)) hassign
    simp only [createAssignments, List.map_flatMap, List.map_map, Function.comp_def,
      List.map_id'] at hparams
    rw [TestNode.parameters, ← hparams, parametersAlong]
    simp only [List.flatMap_map, content]
  · rw [interceptsAt, hline, Option.map_some]
    have hlast : (line ++ [(x.1, x.2 ++ b.intercepts)]).flatMap Prod.snd =
        (line ++ [x]).flatMap Prod.snd ++ b.intercepts := by simp
    rw [hlast, ← hicepts, mocksAlong]
    simp only [List.flatMap_map, content]
  · have hnames := congrArg (List.filterMap fun x => x.1.name) hall
    rw [List.filterMap_append, List.filterMap_map] at hnames
    have hpath : q.inits.reverse.filterMap ((fun x => x.1.name) ∘ content decls) = q.reverse := by
      rw [List.filterMap_reverse]
      exact congrArg _ (filterMap_getLast?_inits q)
    rw [hpath] at hnames
    rw [pathTo, hchain, List.filterMap_map, ← List.reverse_append, List.reverse_eq_iff]
    exact hnames.symm

/-- Trees of the same links are the same if the nodes carry the same, but for intercepts. -/
theorem Represents.congr {a : Nat} (ht : Represents h a t) (hs : SameLinks h h')
    (hdata : ∀ a, (h'.carries a).map Prod.fst = (h.carries a).map Prod.fst) :
    Represents h' a t := by
  induction ht with
  | @mk a cell cs ts hcell hcs hlen _ ih =>
      have heq := hdata a
      simp only [Heap.carries, hcell, Option.map_map, Option.map_some, Function.comp_def] at heq
      obtain ⟨cell', hcell', heq⟩ := Option.map_eq_some_iff.mp heq
      rw [← heq]
      exact .mk hcell' (hs.children hcs) hlen ih

theorem fst_carries_setupBuiltin (b : Builtins) (h : Heap) (tn a : Nat) :
    ((setupBuiltinIntercepts b h tn).carries a).map Prod.fst = (h.carries a).map Prod.fst := by
  by_cases ha : a = tn
  · subst ha
    simp [carries_setupBuiltin_self, Option.map_map, Function.comp_def]
  · rw [carries_setupBuiltin_ne ha]

/-- A node has one pointer. -/
theorem PointsTo.ptr_unique {ptr' : Ptr} (hg : Good h kids) (hp : PointsTo h tn ptr c)
    (hp' : PointsTo h tn ptr' c) : ptr = ptr' := by
  induction hp generalizing ptr' with
  | root =>
      cases hp' with
      | root => rfl
      | child hb hcs hc =>
          obtain rfl := hg.children_eq hcs
          have hlt := (hg.parent _ _ (List.mem_of_getElem? hc)).1
          exact absurd hlt (Nat.not_lt_of_le (hb.isBelow.le hg))
  | child hb hcs hc ih =>
      obtain rfl := hg.children_eq hcs
      have hmem := List.mem_of_getElem? hc
      cases hp' with
      | root =>
          have hlt := (hg.parent _ _ hmem).1
          exact absurd hlt (Nat.not_lt_of_le (hb.isBelow.le hg))
      | child hb' hcs' hc' =>
          obtain rfl := hg.children_eq hcs'
          obtain rfl := hg.parent_unique hmem (List.mem_of_getElem? hc')
          have hi := (List.getElem?_inj (List.getElem?_eq_some_iff.mp hc).1 (hg.nodup _)).mp
            (hc.trans hc'.symm)
          rw [ih hb', hi]

theorem PointsTo.of_severed (hg : Good h kids) (hs : Severed h h' tn bs)
    (hp : PointsTo (setupBuiltinIntercepts b h' tn) tn ptr c) : PointsTo h tn ptr c := by
  have hsame := sameLinks_setupBuiltin b h' tn
  induction hp with
  | root => exact .root
  | child hp hcs hc ih =>
      refine ih.child ?_ hc
      have hchildren := hsame.symm.children hcs
      rwa [Children, hs.children_eq _ (ih.isBelow.le hg), hs.next_eq] at hchildren

/-- The node in memory and the path of a node of the tree. -/
theorem exists_path_of_at? (hg : Good h kids)
    (hcontent : ∀ p c, IsNode h p c → h.carries c = some (content decls p))
    (hs : Severed h h' tn bs) (ht : Represents (setupBuiltinIntercepts b h' tn) tn t)
    {u : TestNode} (hu : t.at? ptr = some u) :
    ∃ c q, PointsTo (setupBuiltinIntercepts b h' tn) tn ptr c ∧ IsNode h q c ∧
      u.data = (content decls q).1 := by
  obtain ⟨c, hc⟩ := ht.pointsTo hu
  obtain ⟨v, cell, hv, hcell, hdata⟩ := hc.data ht
  obtain rfl := Option.some.inj (hu.symm.trans hv)
  have hlt : c < h.length := by
    have hlt := (List.getElem?_eq_some_iff.mp hcell).1
    rwa [(sameLinks_setupBuiltin b h' tn).length_eq, hs.length_eq] at hlt
  obtain ⟨q, hq⟩ := IsNode.exists_path hg hlt
  refine ⟨c, q, hc, hq, ?_⟩
  have heq := fst_carries_setupBuiltin b h' tn c
  rw [hs.carries_eq, hcontent q c hq, Heap.carries, hcell] at heq
  rw [hdata]
  exact Option.some.inj heq

end Planned

/-- **The plan of some declarations**: each test that is declared for a path is an item once for
every combination of the values of the parameters declared along the path, there are no others, and
each has around it what is declared along its path. -/
structure PlannedAs (decls : List (List CString × Attachment)) (b : Builtins) (h : Heap)
    (root : Nat) (t : TestNode) (above : List CString) (items : List Item) : Prop where
  once : (items.map fun i => (pathTo above t i.1, i.2)).Nodup
  items_iff : ∀ q as, (q, as) ∈ items.map (fun i => (pathTo above t i.1, i.2)) ↔
    (firstAt decls .test q).isSome ∧ as.map (·.param) = parametersAlong decls q ∧
      ∀ a ∈ as, a.idx < a.param.values.length
  test : ∀ i ∈ items, ((t.at? i.1).bind fun u => u.data.test) =
    firstAt decls .test (pathTo above t i.1)
  surrounded : ∀ i ∈ items, Surrounded decls b h root t i.1 (pathTo above t i.1)

section Planned

variable {decls : List (List CString × Attachment)} {h h' : Heap} {kids : Nat → List Nat}
  {tn : Nat} {bs : List Nat} {b : Builtins} {t : TestNode}

/-- What is declared for a path has a node, which is not bare if it is a test. -/
theorem Discovered.exists_test (hd : Discovered decls h) {q : List CString}
    (hq : (firstAt decls .test q).isSome) :
    ∃ c cell, IsNode h q c ∧ h[c]? = some cell ∧ ¬ cell.Bare := by
  obtain ⟨calls, hb, hcalls⟩ := hd.built
  obtain ⟨kids, -, hreturned, -⟩ := hb.good
  have hmem : q ∈ decls.map Prod.fst := by
    by_contra hnot
    simp [firstAt, declaredAt_eq_nil hnot] at hq
  rw [← hcalls] at hmem
  obtain ⟨call, hcall, rfl⟩ := List.mem_map.mp hmem
  have hcontent := hd.content _ _ (hreturned call hcall)
  obtain ⟨cell, hcell, heq⟩ := Option.map_eq_some_iff.mp hcontent
  refine ⟨call.2, cell, hreturned call hcall, hcell, fun hbare => ?_⟩
  have htest : cell.data.test = firstAt decls .test call.1 :=
    congrArg (fun x => x.1.test) heq
  rw [← htest, hbare.2.2.2.1] at hq
  cases hq

/-- The items of the plan with the root. -/
theorem plannedAs (hd : Discovered decls h) (hg : Good h kids) (hs : Severed h h' tn bs)
    (ht : Represents (setupBuiltinIntercepts b h' tn) tn t) :
    PlannedAs decls b (setupBuiltinIntercepts b h' tn) tn t
      (((bs.filterMap h.carries).filterMap fun x => x.1.name).reverse)
      (testItems t (TestNode.preorder [] t)) := by
  have hnodes : ∀ ptr u, t.at? ptr = some u →
      ∃ c, PointsTo (setupBuiltinIntercepts b h' tn) tn ptr c ∧
        IsNode h (pathTo (((bs.filterMap h.carries).filterMap fun x => x.1.name).reverse) t ptr) c ∧
        u.data.test = firstAt decls .test
          (pathTo (((bs.filterMap h.carries).filterMap fun x => x.1.name).reverse) t ptr) ∧
        Surrounded decls b (setupBuiltinIntercepts b h' tn) tn t ptr
          (pathTo (((bs.filterMap h.carries).filterMap fun x => x.1.name).reverse) t ptr) := by
    intro ptr u hu
    obtain ⟨c, q, hc, hq, hdata⟩ := exists_path_of_at? hg hd.content hs ht hu
    obtain ⟨hsurrounded, hpath⟩ := surrounded hg hd.content hs ht hc hq
    rw [hpath]
    exact ⟨c, hc, hq, by rw [hdata]; rfl, hsurrounded⟩
  generalize ((bs.filterMap h.carries).filterMap fun x => x.1.name).reverse = above at hnodes ⊢
  have hitem : ∀ i ∈ testItems t (TestNode.preorder [] t), ∃ u, t.at? i.1 = some u := by
    rintro ⟨ptr, as⟩ hi
    exact Option.isSome_iff_exists.mp ((TestNode.mem_preorder rfl).mp (mem_testItems.mp hi).1).2
  refine ⟨?_, ?_, ?_, ?_⟩
  · refine (nodup_testItems (TestNode.nodup_preorder [] t)).map_on ?_
    rintro ⟨ptr, as⟩ hi ⟨ptr', as'⟩ hi' heq
    obtain ⟨hpath, rfl⟩ := Prod.mk.inj heq
    obtain ⟨u, hu⟩ := hitem _ hi
    obtain ⟨u', hu'⟩ := hitem _ hi'
    obtain ⟨c, hc, hq, -⟩ := hnodes ptr u hu
    obtain ⟨c', hc', hq', -⟩ := hnodes ptr' u' hu'
    rw [← hpath] at hq'
    obtain rfl := hq.node_unique hg hq'
    rw [(hc.of_severed hg hs).ptr_unique hg (hc'.of_severed hg hs)]
  · intro q as
    constructor
    · intro hmem
      obtain ⟨⟨ptr, as'⟩, hi, heq⟩ := List.mem_map.mp hmem
      obtain ⟨rfl, rfl⟩ := Prod.mk.inj heq
      obtain ⟨u, hu⟩ := hitem _ hi
      obtain ⟨c, -, -, htest, hsur⟩ := hnodes ptr u hu
      obtain ⟨-, htestable, hparams, hrange⟩ := mem_testItems.mp hi
      rw [TestNode.testable, hu, Option.bind_some, htest] at htestable
      exact ⟨htestable, hparams.trans hsur.parameters, hrange⟩
    · rintro ⟨htest, hparams, hrange⟩
      obtain ⟨c, cell, hq, hcell, hbare⟩ := hd.exists_test htest
      have hbelow := (hs.carriers c cell hcell hbare).to_severed hg hs
      obtain ⟨ptr, hptr⟩ := ((sameLinks_setupBuiltin b h' tn).below hbelow).pointsTo
      obtain ⟨u, -, hu, -⟩ := hptr.data ht
      obtain ⟨c', hc', hq', htest', hsur⟩ := hnodes ptr u hu
      obtain rfl := hptr.node_unique hc'
      obtain rfl := hq.path_unique hg hq'
      refine List.mem_map.mpr ⟨(ptr, as), mem_testItems.mpr ⟨?_, ?_, ?_, hrange⟩, rfl⟩
      · exact (TestNode.mem_preorder rfl).mpr ⟨List.nil_suffix, by rw [hu]; rfl⟩
      · rw [TestNode.testable, hu, Option.bind_some, htest']
        exact htest
      · exact hparams.trans hsur.parameters.symm
  · intro i hi
    obtain ⟨u, hu⟩ := hitem i hi
    obtain ⟨c, -, -, htest, -⟩ := hnodes i.1 u hu
    rw [hu, Option.bind_some, htest]
  · intro i hi
    obtain ⟨u, hu⟩ := hitem i hi
    obtain ⟨c, -, -, -, hsur⟩ := hnodes i.1 u hu
    exact hsur

/-- A parameter along a path was declared. -/
theorem mem_of_mem_parametersAlong {q : List CString} {x : Parameter}
    (hx : x ∈ parametersAlong decls q) : ∃ d ∈ decls, d.2 = .parameter x := by
  obtain ⟨p, -, hx⟩ := List.mem_flatMap.mp hx
  obtain ⟨y, hy, hparam⟩ := List.mem_filterMap.mp hx
  obtain ⟨d, hd, rfl⟩ := List.mem_map.mp hy
  refine ⟨d, (List.mem_filter.mp hd).1, ?_⟩
  cases hattach : d.2 with
  | parameter z =>
      rw [hattach] at hparam
      exact congrArg Attachment.parameter (Option.some.inj hparam)
  | function type f =>
      rw [hattach] at hparam
      cases hparam
  | mock r =>
      rw [hattach] at hparam
      cases hparam

end Planned

/-- Where no function derails discovery there is an instance, and its tests are the plan of the
declarations; the parameters at its nodes were declared. -/
theorem exists_instance (units : List (List Reflected)) (b : Builtins)
    (hfns : ∀ fn ∈ units.flatten, ¬ Derails units fn) :
    ∃ h root t above, testmanagerInstance units b = .ok (h, root) ∧ Represents h root t ∧
      PlannedAs (declarations units) b h root t above (testItems t (TestNode.preorder [] t)) ∧
      ∀ ptr ∈ TestNode.preorder [] t, ∀ x ∈ t.parameters ptr,
        ∃ d ∈ declarations units, d.2 = .parameter x := by
  rcases discovered_root.loop units units.flatten 0 with
    ⟨-, h, hloop, hd⟩ | ⟨⟨fn, hfn, hderails⟩, -⟩
  · rw [List.nil_append] at hd
    obtain ⟨calls, hbuilt, -⟩ := hd.built
    obtain ⟨kids, hg, -, -⟩ := hbuilt.good
    obtain ⟨h', tn, bs, hdetach, hs⟩ := detachCommon_severed hg
    obtain ⟨h₁, tn₁, t, hdetach₁, ht⟩ := represents_detached hbuilt
    obtain ⟨rfl, rfl⟩ := Prod.mk.inj (Except.ok.inj (hdetach.symm.trans hdetach₁))
    have ht' := ht.congr (sameLinks_setupBuiltin b h' tn)
      (fst_carries_setupBuiltin b h' tn)
    refine ⟨_, tn, t, _, ?_, ht', plannedAs (b := b) hd hg hs ht', fun ptr hptr x hx => ?_⟩
    · simp only [testmanagerInstance, discoverFunctions, hloop, hdetach]
    · obtain ⟨u, hu⟩ := Option.isSome_iff_exists.mp ((TestNode.mem_preorder rfl).mp hptr).2
      obtain ⟨c, q, hc, hq, -⟩ := exists_path_of_at? hg hd.content hs ht' hu
      rw [(surrounded hg hd.content hs ht' hc hq).1.parameters] at hx
      exact mem_of_mem_parametersAlong hx
  · exact absurd hderails (hfns fn hfn)

/-- **From the functions of a program to its tests.**  Where no function derails discovery and every
parameter that is declared has values, the tree is made, the iteration of the plan with its root
comes to its end, and what it yields is the plan of the declarations. -/
theorem discovered_tests_planned (units : List (List Reflected)) (b : Builtins)
    (hfns : ∀ fn ∈ units.flatten, ¬ Derails units fn)
    (hvals : ∀ d ∈ declarations units, ∀ x, d.2 = .parameter x → x.values ≠ []) :
    ∃ h root t above items, testmanagerInstance units b = .ok (h, root) ∧ Represents h root t ∧
      Yields t [[]] items ∧ PlannedAs (declarations units) b h root t above items := by
  obtain ⟨h, root, t, above, hinstance, ht, hplan, hdeclared⟩ := exists_instance units b hfns
  refine ⟨h, root, t, above, _, hinstance, ht, ?_, hplan⟩
  refine collect_walk (TestNode.walk_node rfl) fun ptr hptr x hx => ?_
  obtain ⟨d, hd, heq⟩ := hdeclared ptr hptr x hx
  exact hvals d hd x heq

/-- A function without parameters in the file `/t/a.c`. -/
def declaredFunction (name : String) (returnType : Nat) (result : Option ParamDec) : Reflected where
  func := ⟨nodeName "/t/a.c", nodeName name, .returned 0⟩
  address := 16
  liveAddress := 16
  isDeclaration := false
  fullName := nodeName name
  returnType := returnType
  parameterTypes := 0
  result := result

/-- A file with a setup function, a parameter with two values and a test. -/
def oneFile : List (List Reflected) :=
  [[declaredFunction "set_up" tcSignedInt none,
    declaredFunction "__np_parameter_kind" tcPointer (some ⟨64, nodeName "a,b", by decide⟩),
    declaredFunction "test_it" tcVoid none]]

theorem discovered_tests_planned_one_file :
    ∃ h root t above items, testmanagerInstance oneFile ⟨1, 2, 3, 4, 5, 6⟩ = .ok (h, root) ∧
      Represents h root t ∧ Yields t [[]] items ∧
      PlannedAs (declarations oneFile) ⟨1, 2, 3, 4, 5, 6⟩ h root t above items := by
  refine discovered_tests_planned oneFile _ (by decide +kernel) fun d hd x hx => ?_
  have hall : ∀ d ∈ declarations oneFile, ∀ x ∈ d.2.parameter?, x.values ≠ [] := by decide +kernel
  exact hall d hd x (by rw [hx]; rfl)

end NovaProva
