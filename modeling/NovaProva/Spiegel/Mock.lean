import NovaProva.Spiegel.Intercept
import Mathlib.Data.List.Induction

/-!
# Spiegel — Mock

The mocks of a test, in `np/testnode.cxx`: `pre_run` installs the intercepts of the node and its
ancestors, the test makes any sequence of `np_mock` and `np_unmock` calls, and `post_run`
uninstalls the nodes' intercepts and the mocks that are left in `dynamic_intercepts`.

`Grown` is the invariant from `pre_run` to `post_run`: what was registered before the test is still
registered, in front of what the test has added.
-/

namespace NovaProva

/-! ### The test node -/

/-- The state a test runs in: the intercepts, and `dynamic_intercepts`. -/
structure MockState where
  icept : InterceptState
  dynamic : List Intercept := []

/-- A call the test makes: `np_mock` with the object that `new redirect_t` returns, and
`np_unmock`. -/
inductive MockCall where
  | mock (this : Nat) (from_ : Addr)
  | unmock (from_ : Addr)
  deriving DecidableEq

namespace MockState

/-- `testnode_t::pre_run`; `nodes` are the `intercepts_` of the node and its ancestors. -/
def preRun (vg : Bool) (nodes : List (List Intercept)) (s : MockState) : MockState :=
  { s with
    icept := nodes.foldl (fun s is => is.foldl (fun s i => (s.install vg {} i).2) s) s.icept }

/-- `__np_mock` and `__np_unmock`; `instr` is `instrumentable_address`. -/
def call (vg : Bool) (instr : Addr → Addr) (s : MockState) : MockCall → MockState
  | .mock this from_ =>
      let m : Intercept := ⟨this, instr from_⟩
      { icept := (s.icept.install vg {} m).2, dynamic := s.dynamic ++ [m] }
  | .unmock from_ =>
      match s.dynamic.find? fun m => m.addr = from_ with
      | none   => s
      | some m =>
          { icept := (s.icept.uninstall {} m).2
            dynamic := s.dynamic.eraseP fun m => m.addr = from_ }

/-- The state of a test behind `pre_run` and some calls of its own. -/
def inTest (vg : Bool) (instr : Addr → Addr) (nodes : List (List Intercept))
    (calls : List MockCall) (s : InterceptState) : MockState :=
  calls.foldl (call vg instr) (preRun vg nodes ⟨s, []⟩)

/-- `testnode_t::post_run`. -/
def postRun (nodes : List (List Intercept)) (s : MockState) : MockState :=
  let icept := nodes.foldl (fun s is => is.foldl (fun s i => (s.uninstall {} i).2) s) s.icept
  { icept := s.dynamic.foldl (fun s i => (s.uninstall {} i).2) icept, dynamic := [] }

/-- A whole test. -/
def runTest (vg : Bool) (instr : Addr → Addr) (nodes : List (List Intercept))
    (calls : List MockCall) (s : MockState) : MockState :=
  ((calls.foldl (call vg instr) (s.preRun vg nodes))).postRun nodes

end MockState

/-- A call the test can make: what is mocked can be patched, and `new` returns an object that is
none of those in use. -/
def MockOk (orig : Addr → UInt8) (instr : Addr → Addr) (used : List Intercept) : MockCall → Prop
  | .mock this from_ => Patchable orig (instr from_) ∧ ∀ i ∈ used, i.this ≠ this
  | .unmock _        => True

/-! ### From `pre_run` to `post_run` -/

/-- The state `s` has grown from `s₀`: the intercepts `extra` are registered after those, `live`,
that were registered in `s₀`, and what `s₀` saved for the latter is unchanged. -/
structure Grown (orig : Addr → UInt8) (live : List Intercept) (s₀ : InterceptState)
    (extra : List Intercept) (s : InterceptState) : Prop where
  patched : Patched orig (live ++ extra) s
  kept : ∀ a as, s₀.installed a = some as → ∃ as', s.installed a = some as' ∧ as'.state = as.state
  traps : s₀.installedSigaction = true →
    s.installedSigaction = true ∧ s.usingInt3 = s₀.usingInt3

section Grown

variable {orig : Addr → UInt8} {live extra : List Intercept} {s₀ s : InterceptState} {vg : Bool}

/-- Installing over a registered intercept does not save the text byte again. -/
theorem install_of_registered {i : Intercept} {as : AddrState} (h : s.installed i.addr = some as)
    (hne : as.intercepts ≠ []) :
    (s.install vg {} i).2 =
      s.setAddrstate i.addr (some { as with intercepts := as.intercepts ++ [i] }) := by
  have hl : ¬ (as.intercepts ++ [i]).length = 1 := by simpa using hne
  simp only [InterceptState.install, InterceptState.getAddrstate, h, Option.getD_some, if_neg hl]

theorem install_flags (vg : Bool) (s : InterceptState) {i : Intercept} (h0 : i.addr ≠ 0)
    (hs : s.installedSigaction = true) :
    (s.install vg {} i).2.installedSigaction = true ∧
      (s.install vg {} i).2.usingInt3 = s.usingInt3 := by
  rw [InterceptState.install]
  simp only
  split
  · obtain ⟨-, -, -, k₄, k₅⟩ := installIntercept_spec vg h0 (s.getAddrstate i.addr).state s
    exact ⟨k₄, k₅ hs⟩
  · exact ⟨hs, rfl⟩

theorem install_other (s : InterceptState) {i : Intercept} (h0 : i.addr ≠ 0) {a : Addr}
    (ha : a ≠ i.addr) : (s.install vg {} i).2.installed a = s.installed a := by
  rw [InterceptState.install]
  simp only
  split
  · obtain ⟨-, k₂, -⟩ := installIntercept_spec vg h0 (s.getAddrstate i.addr).state s
    exact (installed_setAddrstate_of_ne _ ha _).trans (congrFun k₂ a)
  · exact installed_setAddrstate_of_ne s ha _

theorem uninstallIntercept_frame (s : InterceptState) (addr : Addr) (st : IntState) :
    (s.uninstallIntercept {} addr st).2.installed = s.installed ∧
      (s.uninstallIntercept {} addr st).2.installedSigaction = s.installedSigaction ∧
      (s.uninstallIntercept {} addr st).2.usingInt3 = s.usingInt3 := by
  rw [InterceptState.uninstallIntercept]
  split
  · exact ⟨rfl, rfl, rfl⟩
  · split
    · exact ⟨rfl, rfl, rfl⟩
    · exact ⟨rfl, rfl, rfl⟩

theorem uninstall_flags (s : InterceptState) (i : Intercept) :
    (s.uninstall {} i).2.installedSigaction = s.installedSigaction ∧
      (s.uninstall {} i).2.usingInt3 = s.usingInt3 := by
  rw [InterceptState.uninstall]
  simp only
  split
  · exact (uninstallIntercept_frame s i.addr _).2
  · exact ⟨rfl, rfl⟩

theorem uninstall_other (s : InterceptState) (i : Intercept) {a : Addr} (ha : a ≠ i.addr) :
    (s.uninstall {} i).2.installed a = s.installed a := by
  rw [InterceptState.uninstall]
  simp only
  split
  · have hframe := (uninstallIntercept_frame s i.addr (s.getAddrstate i.addr).state).1
    exact (installed_setAddrstate_of_ne _ ha _).trans (congrFun hframe a)
  · exact installed_setAddrstate_of_ne s ha _

theorem Grown.refl (h : Patched orig live s₀) : Grown orig live s₀ [] s₀ :=
  ⟨by rwa [List.append_nil], fun _ as h => ⟨as, h, rfl⟩, fun hs => ⟨hs, rfl⟩⟩

theorem Grown.install (vg : Bool) (h : Grown orig live s₀ extra s) {i : Intercept}
    (hi : Patchable orig i.addr) : Grown orig live s₀ (extra ++ [i]) (s.install vg {} i).2 := by
  refine ⟨?_, fun a as has => ?_, fun hs => ?_⟩
  · rw [← List.append_assoc]
    exact h.patched.install hi
  · obtain ⟨as₁, h₁, hst⟩ := h.kept a as has
    by_cases ha : a = i.addr
    · subst ha
      have hne : as₁.intercepts ≠ [] := by
        intro he
        have hent := h.patched.entries i.addr
        rw [h₁, Option.map_some, he] at hent
        split at hent
        · cases hent
        case isFalse hn =>
          exact hn (Option.some.inj hent).symm
      rw [install_of_registered h₁ hne]
      exact ⟨_, installed_setAddrstate_self .., hst⟩
    · exact ⟨as₁, (install_other s hi.1 ha).trans h₁, hst⟩
  · obtain ⟨h₁, h₂⟩ := h.traps hs
    obtain ⟨k₁, k₂⟩ := install_flags vg s hi.1 h₁
    exact ⟨k₁, k₂.trans h₂⟩

/-- Uninstalling an intercept that was not registered before. -/
theorem Grown.uninstall (h : Grown orig live s₀ extra s) (h₀ : Patched orig live s₀) {i : Intercept}
    (hi : Patchable orig i.addr) (hl : i ∉ live) :
    Grown orig live s₀ (extra.erase i) (s.uninstall {} i).2 := by
  have hp : Patched orig (live ++ extra.erase i) (s.uninstall {} i).2 := by
    rw [← List.erase_append_right _ hl]
    exact h.patched.uninstall hi
  refine ⟨hp, fun a as has => ?_, fun hs => ?_⟩
  · obtain ⟨as₁, h₁, hst⟩ := h.kept a as has
    by_cases ha : a = i.addr
    · -- something of `live` stays registered at the address, so its entry stays
      subst ha
      have hne : atAddr live i.addr ≠ [] := by
        intro he
        rw [h₀.installed_eq_none he] at has
        cases has
      have hne' : atAddr (live ++ extra.erase i) i.addr ≠ [] := by
        rw [atAddr, List.filter_append]
        exact fun he => hne (List.append_eq_nil_iff.mp he).1
      obtain ⟨as₂, h₂, -⟩ := hp.installed_eq_some hne'
      refine ⟨as₂, h₂, ?_⟩
      rw [InterceptState.uninstall, InterceptState.getAddrstate, h₁] at h₂
      simp only [Option.getD_some] at h₂
      split at h₂
      · rw [installed_setAddrstate_self] at h₂
        cases h₂
      · rw [installed_setAddrstate_self] at h₂
        rw [← Option.some.inj h₂]
        exact hst
    · exact ⟨as₁, (uninstall_other s i ha).trans h₁, hst⟩
  · obtain ⟨h₁, h₂⟩ := h.traps hs
    obtain ⟨k₁, k₂⟩ := uninstall_flags s i
    exact ⟨k₁.trans h₁, k₂.trans h₂⟩

/-- With nothing registered that was not before, nothing has changed. -/
theorem Grown.eq (h : Grown orig live s₀ [] s) (h₀ : Patched orig live s₀) :
    s.installed = s₀.installed ∧ s.text = s₀.text := by
  have hp := h.patched
  rw [List.append_nil] at hp
  refine ⟨funext fun a => ?_, funext fun a => ?_⟩
  · by_cases ha : atAddr live a = []
    · rw [hp.installed_eq_none ha, h₀.installed_eq_none ha]
    · obtain ⟨as, has, hi⟩ := hp.installed_eq_some ha
      obtain ⟨as₀, has₀, hi₀⟩ := h₀.installed_eq_some ha
      obtain ⟨as', has', hst⟩ := h.kept a as₀ has₀
      rw [has] at has'
      cases has'
      rw [has, has₀]
      obtain ⟨st, is⟩ := as
      obtain ⟨st₀, is₀⟩ := as₀
      simp only at hst hi hi₀
      rw [hst, hi, hi₀]
  · rw [hp.text, h₀.text]
    by_cases ha : atAddr live a = []
    · rw [if_pos ha, if_pos ha]
    · have hs : s₀.installedSigaction = true := by
        by_contra hf
        rw [h₀.sigaction (by simpa using hf)] at ha
        exact ha rfl
      rw [if_neg ha, if_neg ha, (h.traps hs).2]

theorem Grown.installAll (vg : Bool) {is : List Intercept} (h : Grown orig live s₀ extra s)
    (hi : ∀ i ∈ is, Patchable orig i.addr) :
    Grown orig live s₀ (extra ++ is) (is.foldl (fun s i => (s.install vg {} i).2) s) := by
  induction is generalizing extra s with
  | nil => rwa [List.append_nil]
  | cons i is ih =>
      have hs := h.install vg (hi i List.mem_cons_self)
      have ht := ih hs fun j hj => hi j (List.mem_cons_of_mem _ hj)
      rwa [List.append_assoc, List.singleton_append] at ht

/-- The oldest of what was added is taken off again. -/
theorem Grown.uninstallAll {is rest : List Intercept} (h : Grown orig live s₀ (is ++ rest) s)
    (h₀ : Patched orig live s₀) (hi : ∀ i ∈ is, Patchable orig i.addr ∧ i ∉ live) :
    Grown orig live s₀ rest (is.foldl (fun s i => (s.uninstall {} i).2) s) := by
  induction is generalizing s with
  | nil => exact h
  | cons i is ih =>
      obtain ⟨hp, hl⟩ := hi i List.mem_cons_self
      have hs := h.uninstall h₀ hp hl
      rw [List.cons_append, List.erase_cons_head] at hs
      exact ih hs fun j hj => hi j (List.mem_cons_of_mem _ hj)

end Grown

/-- The invariant while the test runs: the mocks in `dynamic_intercepts` are registered after the
nodes' intercepts, and are objects of their own. -/
structure Mocking (orig : Addr → UInt8) (live : List Intercept) (s₀ : InterceptState)
    (is : List Intercept) (s : MockState) : Prop where
  grown : Grown orig live s₀ (is ++ s.dynamic) s.icept
  ok : ∀ m ∈ s.dynamic, Patchable orig m.addr ∧ m ∉ live ++ is

section Mocking

variable {orig : Addr → UInt8} {live is : List Intercept} {s₀ : InterceptState} {s : MockState}
  {vg : Bool} {instr : Addr → Addr}

theorem Mocking.call (h₀ : Patched orig live s₀) (h : Mocking orig live s₀ is s) {c : MockCall}
    (hc : MockOk orig instr (live ++ is) c) : Mocking orig live s₀ is (s.call vg instr c) := by
  cases c with
  | mock this from_ =>
      obtain ⟨hp, hnew⟩ := hc
      refine ⟨?_, fun m hm => ?_⟩
      · have hg := h.grown.install vg (i := ⟨this, instr from_⟩) hp
        rwa [List.append_assoc] at hg
      · rcases List.mem_append.mp hm with hm | hm
        · exact h.ok m hm
        · rw [List.mem_singleton.mp hm]
          exact ⟨hp, fun hu => hnew _ hu rfl⟩
  | unmock from_ =>
      rw [MockState.call]
      cases hf : s.dynamic.find? fun m => m.addr = from_ with
      | none => exact h
      | some m =>
          -- the first mock at the address, in `dynamic_intercepts` and in the registry
          obtain ⟨hm, as, bs, hd, has⟩ := List.find?_eq_some_iff_append.mp hf
          have hmem : m ∈ s.dynamic := by rw [hd]; simp
          obtain ⟨hp, hn⟩ := h.ok m hmem
          have hnas : m ∉ as := fun hma => by simpa [hm] using has m hma
          have herase : s.dynamic.eraseP (fun m => m.addr = from_) = as ++ bs := by
            rw [hd, List.eraseP_append_right _ (fun d hd => by simpa using has d hd),
              List.eraseP_cons_of_pos (by simpa using hm)]
          refine ⟨?_, fun m' hm' => h.ok m' ?_⟩
          · have hg := h.grown.uninstall h₀ hp fun hl => hn (List.mem_append_left _ hl)
            rw [List.erase_append_right _ fun hi => hn (List.mem_append_right _ hi), hd,
              List.erase_append_right _ hnas, List.erase_cons_head] at hg
            show Grown orig live s₀ (is ++ s.dynamic.eraseP _) _
            rw [herase]
            exact hg
          · exact List.eraseP_sublist.subset hm'

/-- What is registered behind `pre_run` and some calls. -/
theorem inTest_mocking (vg : Bool) (h₀ : Patched orig live s₀) {nodes : List (List Intercept)}
    {calls : List MockCall} (hn : ∀ i ∈ nodes.flatten, Patchable orig i.addr ∧ i ∉ live)
    (hc : ∀ c ∈ calls, MockOk orig instr (live ++ nodes.flatten) c) :
    Mocking orig live s₀ nodes.flatten (MockState.inTest vg instr nodes calls s₀) := by
  rw [MockState.inTest]
  induction calls using List.reverseRecOn with
  | nil =>
      refine ⟨?_, fun m hm => absurd hm List.not_mem_nil⟩
      have hg := (Grown.refl h₀).installAll vg fun i hi => (hn i hi).1
      rw [List.foldl_flatten, List.nil_append] at hg
      show Grown orig live s₀ (nodes.flatten ++ []) _
      rw [List.append_nil]
      exact hg
  | append_singleton calls c ih =>
      rw [List.foldl_append]
      refine Mocking.call h₀ (ih fun d hd => hc d (List.mem_append_left _ hd)) ?_
      exact hc c (List.mem_append_right _ List.mem_cons_self)

/-- What a whole test leaves behind. -/
theorem runTest_grown (h₀ : Patched orig live s₀) {nodes : List (List Intercept)}
    {calls : List MockCall} (hn : ∀ i ∈ nodes.flatten, Patchable orig i.addr ∧ i ∉ live)
    (hc : ∀ c ∈ calls, MockOk orig instr (live ++ nodes.flatten) c) :
    Grown orig live s₀ [] (MockState.runTest vg instr nodes calls ⟨s₀, []⟩).icept := by
  have hm := inTest_mocking vg h₀ hn hc
  rw [MockState.runTest, MockState.postRun, ← List.foldl_flatten]
  have hdyn := hm.grown.uninstallAll h₀ hn
  rw [← List.append_nil (MockState.dynamic _)] at hdyn
  refine hdyn.uninstallAll h₀ fun m hmem => ?_
  obtain ⟨hp, hnot⟩ := hm.ok m hmem
  exact ⟨hp, fun hl => hnot (List.mem_append_left _ hl)⟩

end Mocking

/-- **The registry and the text follow the registered intercepts.**  After any sequence of
`install` and `uninstall` calls the registry has an entry for an address exactly if an intercept is
registered there, the text byte there is the trap byte exactly then, and `dispatch_before` visits
the intercepts there in the order of their installation; and from any such state a test that
installs its nodes' intercepts, mocks and unmocks leaves the registry and the text as they were. -/
theorem intercepts_follow_registrations {orig : Addr → UInt8} (vg : Bool)
    {calls : List InterceptCall} (hc : ∀ c ∈ calls, Patchable orig c.intercept.addr) :
    let live := registered calls
    let s := (InterceptState.fresh orig).run vg calls
    (∀ a, (s.installed a).isSome = true ↔ ∃ i ∈ live, i.addr = a) ∧
    (∀ a, s.text a = if (s.installed a).isSome then trapByte s.usingInt3 else orig a) ∧
    (∀ (γ : Type) (before : Intercept → γ → γ) (a : Addr) (call : γ),
      s.dispatchBefore before a call = (atAddr live a).foldl (fun call i => before i call) call) ∧
    ∀ (instr : Addr → Addr) (nodes : List (List Intercept)) (mocks : List MockCall),
      (∀ i ∈ nodes.flatten, Patchable orig i.addr ∧ i ∉ live) →
      (∀ c ∈ mocks, MockOk orig instr (live ++ nodes.flatten) c) →
      (MockState.runTest vg instr nodes mocks ⟨s, []⟩).icept.installed = s.installed ∧
        (MockState.runTest vg instr nodes mocks ⟨s, []⟩).icept.text = s.text := by
  intro live s
  have h : Patched orig live s := patched_run vg hc
  refine ⟨h.isSome_iff, fun a => ?_, fun γ before a call => h.dispatchBefore before a call,
    fun instr nodes mocks hn hm => ?_⟩
  · rw [h.text]
    by_cases ha : atAddr live a = []
    · rw [if_pos ha, h.installed_eq_none ha]
      rfl
    · obtain ⟨as, has, -⟩ := h.installed_eq_some ha
      rw [if_neg ha, has]
      rfl
  · exact (runTest_grown h hn hm).eq h

/-- One intercept, and a test of a node that mocks the same function, as the test does. -/
theorem intercepts_follow_registrations_shared :
    let s := (InterceptState.fresh fun _ => insnPushRbp).run false [.install ⟨1, 16⟩]
    let t := MockState.runTest false id [[⟨2, 16⟩]] [.mock 3 16, .mock 4 16, .unmock 16] ⟨s, []⟩
    s.text 16 = insnHlt ∧ t.icept.installed = s.installed ∧ t.icept.text = s.text := by
  have hp : Patchable (fun _ => insnPushRbp) 16 := ⟨by decide, by decide⟩
  have hc : ∀ c ∈ [InterceptCall.install ⟨1, 16⟩],
      Patchable (fun _ => insnPushRbp) c.intercept.addr := by
    intro c hc
    rw [List.mem_singleton.mp hc]
    exact hp
  have h := intercepts_follow_registrations false hc
  refine ⟨rfl, h.2.2.2 id [[⟨2, 16⟩]] [.mock 3 16, .mock 4 16, .unmock 16] ?_ ?_⟩
  · intro i hi
    obtain rfl : i = ⟨2, 16⟩ := by simpa using hi
    exact ⟨hp, by decide⟩
  · intro c hc
    simp only [List.mem_cons, List.not_mem_nil, or_false] at hc
    rcases hc with rfl | rfl | rfl
    · exact ⟨hp, by decide⟩
    · exact ⟨hp, by decide⟩
    · trivial

end NovaProva
