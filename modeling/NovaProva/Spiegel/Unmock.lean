import NovaProva.Spiegel.Mock
import NovaProva.Lib.Runs
import Mathlib.Data.List.Nodup

/-!
# Spiegel — Unmock

`np_mock` and `np_unmock` over whole sequences of calls.  A mock is stored under the instrumentable
address of its function, and `np_unmock` looks for the address it is given and takes off the first
mock it finds there.  So it leaves the mocks of a function that is called through a PLT, and all
but one of those of a function that was mocked more than once.
-/

namespace NovaProva

/-- A mock of `dynamic_intercepts` and the function `np_mock` was called for. -/
structure DynamicMock where
  function : Addr
  mock : Intercept
  deriving DecidableEq

/-- What a call does to `dynamic_intercepts`. -/
def MockCall.track (instr : Addr → Addr) (ms : List DynamicMock) : MockCall → List DynamicMock
  | .mock this from_ => ms ++ [⟨from_, ⟨this, instr from_⟩⟩]
  | .unmock from_    => ms.eraseP fun m => m.mock.addr = from_

/-- `dynamic_intercepts` after some calls, oldest first. -/
def dynamicMocks (instr : Addr → Addr) (calls : List MockCall) : List DynamicMock :=
  calls.foldl (MockCall.track instr) []

/-- What `np_unmock` of `f` is for: of the dynamic mocks `ms` before it none that was installed for
`f` is registered after it, and at other addresses than that of `f` nothing has changed. -/
structure Unmocked (instr : Addr → Addr) (f : Addr) (ms : List DynamicMock)
    (s t : InterceptState) : Prop where
  gone : ∀ m ∈ ms, m.function = f → ∀ a as, t.installed a = some as → m.mock ∉ as.intercepts
  others : ∀ a, a ≠ instr f →
    (t.installed a).map (·.intercepts) = (s.installed a).map (·.intercepts)

/-- Where `np_unmock` of `f` does that: every mock for a function that is instrumented where it is
called is the oldest one there, so there is one at most; a function that is instrumented elsewhere
has no mock, and no mock is where it is called. -/
def Unmockable (instr : Addr → Addr) (f : Addr) (ms : List DynamicMock) : Prop :=
  if instr f = f then
    ∀ m ∈ ms, m.function = f → ms.find? (fun d => d.mock.addr = f) = some m
  else ∀ m ∈ ms, m.function ≠ f ∧ m.mock.addr ≠ f

/-- The calls a test can make: each is so with the objects that are in use before it. -/
def MocksOk (orig : Addr → UInt8) (instr : Addr → Addr) (used : List Intercept)
    (calls : List MockCall) : Prop :=
  Each (fun pre c =>
    MockOk orig instr (used ++ (dynamicMocks instr pre).map DynamicMock.mock) c) calls

/-! ### `dynamic_intercepts` -/

section
variable {orig : Addr → UInt8} {instr : Addr → Addr} {used : List Intercept}
  {calls : List MockCall} {vg : Bool} {f : Addr}

theorem dynamicMocks_append (calls : List MockCall) (c : MockCall) :
    dynamicMocks instr (calls ++ [c]) = c.track instr (dynamicMocks instr calls) :=
  List.foldl_append ..

theorem MocksOk.of_append {c : MockCall} (h : MocksOk orig instr used (calls ++ [c])) :
    MocksOk orig instr used calls ∧
      MockOk orig instr (used ++ (dynamicMocks instr calls).map DynamicMock.mock) c := by
  refine ⟨fun pre d post he => h pre d (post ++ [c]) ?_, h calls c [] rfl⟩
  rw [he]
  simp

theorem MocksOk.append {c : MockCall} (h : MocksOk orig instr used calls)
    (hc : MockOk orig instr (used ++ (dynamicMocks instr calls).map DynamicMock.mock) c) :
    MocksOk orig instr used (calls ++ [c]) :=
  Each.append h (each_singleton (by rwa [List.append_nil]))

theorem MockOk.of_used {is js : List Intercept} (hsub : ∀ i ∈ js, i ∈ is) {c : MockCall}
    (h : MockOk orig instr is c) : MockOk orig instr js c := by
  cases c with
  | mock this from_ => exact ⟨h.1, fun i hi => h.2 i (hsub i hi)⟩
  | unmock from_ => trivial

theorem MocksOk.mem (h : MocksOk orig instr used calls) :
    ∀ c ∈ calls, MockOk orig instr used c := by
  intro c hc
  obtain ⟨pre, post, he⟩ := List.append_of_mem hc
  exact (h pre c post he).of_used fun i hi => List.mem_append_left _ hi

/-- What is known of the mocks in `dynamic_intercepts`: they are objects of their own, and each is
at the instrumentable address of its function. -/
structure DistinctMocks (instr : Addr → Addr) (ms : List DynamicMock) : Prop where
  distinct : (ms.map fun m => m.mock.this).Nodup
  addr : ∀ m ∈ ms, m.mock.addr = instr m.function

theorem distinct_dynamicMocks (h : MocksOk orig instr used calls) :
    DistinctMocks instr (dynamicMocks instr calls) := by
  induction calls using List.reverseRecOn with
  | nil => exact ⟨.nil, fun m hm => absurd hm List.not_mem_nil⟩
  | append_singleton calls c ih =>
      obtain ⟨hcalls, hc⟩ := h.of_append
      obtain ⟨hdistinct, haddr⟩ := ih hcalls
      rw [dynamicMocks_append]
      cases c with
      | mock this from_ =>
          refine ⟨?_, fun m hm => ?_⟩
          · rw [MockCall.track, List.map_append, List.nodup_append]
            refine ⟨hdistinct, List.nodup_singleton _, fun x hx y hy => ?_⟩
            obtain ⟨m, hm, rfl⟩ := List.mem_map.mp hx
            rw [List.mem_singleton.mp hy]
            exact hc.2 m.mock (List.mem_append_right _ (List.mem_map_of_mem hm))
          · rcases List.mem_append.mp hm with hm | hm
            · exact haddr m hm
            · rw [List.mem_singleton.mp hm]
      | unmock from_ =>
          exact ⟨hdistinct.sublist (List.eraseP_sublist.map _),
            fun m hm => haddr m (List.mem_of_mem_eraseP hm)⟩

/-- The list of the source is what is tracked. -/
theorem dynamic_inTest (vg : Bool) (instr : Addr → Addr) (nodes : List (List Intercept))
    (calls : List MockCall) (s : InterceptState) :
    (MockState.inTest vg instr nodes calls s).dynamic =
      (dynamicMocks instr calls).map DynamicMock.mock := by
  rw [MockState.inTest]
  induction calls using List.reverseRecOn with
  | nil => rfl
  | append_singleton calls c ih =>
      rw [List.foldl_append, dynamicMocks_append]
      cases c with
      | mock this from_ =>
          show (calls.foldl (MockState.call vg instr) _).dynamic ++ [_] = _
          rw [ih, MockCall.track, List.map_append]
          rfl
      | unmock from_ =>
          show (MockState.call vg instr (calls.foldl _ _) (.unmock from_)).dynamic = _
          rw [MockCall.track, ← Function.comp_def (fun m : Intercept => decide (m.addr = from_)),
            ← List.eraseP_map, ← ih, MockState.call]
          split
          next hnone =>
            rw [List.eraseP_of_forall_not]
            exact fun m hm => List.find?_eq_none.mp hnone m hm
          · rfl

theorem DistinctMocks.nodup {ms : List DynamicMock} (h : DistinctMocks instr ms) : ms.Nodup :=
  List.Nodup.of_map _ h.distinct

theorem DistinctMocks.eq_of_mock {ms : List DynamicMock} (h : DistinctMocks instr ms)
    {m d : DynamicMock} (hm : m ∈ ms) (hd : d ∈ ms) (he : m.mock = d.mock) : m = d :=
  List.inj_on_of_nodup_map h.distinct hm hd (congrArg Intercept.this he)

/-- What is taken off a list is what is found in it. -/
theorem notMem_eraseP_iff {α : Type} {p : α → Bool} {as : List α} (hn : as.Nodup) {a : α}
    (ha : a ∈ as) : a ∉ as.eraseP p ↔ as.find? p = some a := by
  cases hf : as.find? p with
  | none =>
      rw [List.eraseP_of_forall_not fun b hb => List.find?_eq_none.mp hf b hb]
      simp [ha]
  | some b =>
      obtain ⟨hb, bs, cs, rfl, hbs⟩ := List.find?_eq_some_iff_append.mp hf
      rw [List.eraseP_append_right _ (fun c hc => by simpa using hbs c hc),
        List.eraseP_cons_of_pos hb, Option.some.injEq]
      have hnot : b ∉ bs ++ cs := (List.nodup_middle.mp hn).notMem
      constructor
      · intro hne
        rw [List.mem_append, List.mem_cons] at ha
        rw [List.mem_append, not_or] at hne
        rcases ha with ha | rfl | ha
        · exact absurd ha hne.1
        · rfl
        · exact absurd ha hne.2
      · rintro rfl
        exact hnot

/-! ### The registry -/

theorem Patched.registered_iff {live : List Intercept} {s : InterceptState}
    (h : Patched orig live s) (i : Intercept) :
    (∀ a as, s.installed a = some as → i ∉ as.intercepts) ↔ i ∉ live := by
  have hmem : i ∈ atAddr live i.addr ↔ i ∈ live := by simp [atAddr]
  constructor
  · intro hnot hi
    have hne : atAddr live i.addr ≠ [] := List.ne_nil_of_mem (hmem.mpr hi)
    obtain ⟨as, has, he⟩ := h.installed_eq_some hne
    refine hnot i.addr as has ?_
    rw [he]
    exact hmem.mpr hi
  · intro hnot a as has hi
    have hent := h.entries a
    rw [has, Option.map_some] at hent
    split at hent
    · cases hent
    · rw [Option.some.inj hent] at hi
      exact hnot (List.mem_filter.mp hi).1

/-- The registry tells the intercepts at an address. -/
theorem Patched.atAddr_congr {live live' : List Intercept} {s t : InterceptState}
    (h : Patched orig live s) (h' : Patched orig live' t) (a : Addr) :
    (t.installed a).map (·.intercepts) = (s.installed a).map (·.intercepts) ↔
      atAddr live' a = atAddr live a := by
  rw [h.entries, h'.entries]
  constructor
  · intro he
    split at he
    case isTrue hnil' =>
      split at he
      case isTrue hnil =>
        rw [hnil, hnil']
      · cases he
    · split at he
      · cases he
      · exact Option.some.inj he
  · intro he
    rw [he]

section
variable {live is : List Intercept} {ms : List DynamicMock} {s t : InterceptState}

/-- The mocks of the function that are left. -/
theorem unmock_gone_iff
    (h' : Patched orig
      (live ++ (is ++ (ms.eraseP fun m => m.mock.addr = f).map DynamicMock.mock)) t)
    (hms : DistinctMocks instr ms) (hnew : ∀ m ∈ ms, m.mock ∉ live ++ is) :
    (∀ m ∈ ms, m.function = f → ∀ a as, t.installed a = some as → m.mock ∉ as.intercepts) ↔
      ∀ m ∈ ms, m.function = f → ms.find? (fun d => d.mock.addr = f) = some m := by
  refine forall_congr' fun m => forall_congr' fun hm => imp_congr_right fun _ => ?_
  rw [h'.registered_iff, ← List.append_assoc, List.mem_append, or_iff_right (hnew m hm),
    ← notMem_eraseP_iff hms.nodup hm, not_iff_not, List.mem_map]
  constructor
  · rintro ⟨d, hd, he⟩
    exact hms.eq_of_mock hm (List.mem_of_mem_eraseP hd) he.symm ▸ hd
  · intro hmem
    exact ⟨m, hmem, rfl⟩

/-- The mock that is taken off is at the address that is given. -/
theorem unmock_others_iff (instr : Addr → Addr)
    (h : Patched orig (live ++ (is ++ ms.map DynamicMock.mock)) s)
    (h' : Patched orig
      (live ++ (is ++ (ms.eraseP fun m => m.mock.addr = f).map DynamicMock.mock)) t) :
    (∀ a, a ≠ instr f →
        (t.installed a).map (·.intercepts) = (s.installed a).map (·.intercepts)) ↔
      (instr f ≠ f → ∀ m ∈ ms, m.mock.addr ≠ f) := by
  have hiff : ∀ a, (t.installed a).map (·.intercepts) = (s.installed a).map (·.intercepts) ↔
      (a = f → ∀ m ∈ ms, m.mock.addr ≠ f) := by
    intro a
    rw [h.atAddr_congr h']
    simp only [atAddr, List.filter_append, List.append_cancel_left_eq]
    cases hf : ms.find? fun m => m.mock.addr = f with
    | none =>
        have hnone : ∀ m ∈ ms, m.mock.addr ≠ f := by
          intro m hm
          simpa using List.find?_eq_none.mp hf m hm
        rw [List.eraseP_of_forall_not fun m hm => by simpa using hnone m hm]
        exact iff_of_true rfl fun _ => hnone
    | some d =>
        obtain ⟨hd, bs, cs, rfl, hbs⟩ := List.find?_eq_some_iff_append.mp hf
        have hd' : d.mock.addr = f := of_decide_eq_true hd
        rw [List.eraseP_append_right _ (fun c hc => by simpa using hbs c hc),
          List.eraseP_cons_of_pos (by simpa using hd')]
        simp only [List.map_append, List.map_cons, List.filter_append,
          List.append_cancel_left_eq]
        by_cases ha : a = f
        · rw [ha, List.filter_cons_of_pos (by simpa using hd')]
          constructor
          · intro he
            exact absurd he (List.cons_ne_self _ _).symm
          · intro hall
            exact absurd hd' (hall rfl d (by simp))
        · rw [List.filter_cons_of_neg (by simpa [hd'] using Ne.symm ha)]
          simp [ha]
  constructor
  · intro hall hne
    exact (hiff f).mp (hall f hne.symm) rfl
  · intro hnone a ha
    rw [hiff]
    rintro rfl
    exact hnone ha.symm

end

/-- **`np_unmock` takes off the mocks of its function and no others** exactly if these are one at
most and where the function is called.  This is so after every sequence of `np_mock` and
`np_unmock` calls, for every layout of the PLTs. -/
theorem unmock_removes_iff {history : List InterceptCall}
    (hh : ∀ c ∈ history, Patchable orig c.intercept.addr) {nodes : List (List Intercept)}
    (hn : ∀ i ∈ nodes.flatten, Patchable orig i.addr ∧ i ∉ registered history)
    (hc : MocksOk orig instr (registered history ++ nodes.flatten) calls) :
    let s := MockState.inTest vg instr nodes calls ((InterceptState.fresh orig).run vg history)
    Unmocked instr f (dynamicMocks instr calls) s.icept
        (s.call vg instr (.unmock f)).icept ↔
      Unmockable instr f (dynamicMocks instr calls) := by
  intro s
  have h₀ := patched_run vg hh
  have hs := inTest_mocking vg h₀ hn hc.mem
  have ht : Mocking orig (registered history) _ nodes.flatten (s.call vg instr (.unmock f)) :=
    hs.call h₀ trivial
  have hdyn : s.dynamic = (dynamicMocks instr calls).map DynamicMock.mock :=
    dynamic_inTest vg instr nodes calls _
  have hdyn' : (s.call vg instr (.unmock f)).dynamic =
      ((dynamicMocks instr calls).eraseP fun m => m.mock.addr = f).map DynamicMock.mock := by
    have he := dynamic_inTest vg instr nodes (calls ++ [.unmock f])
      ((InterceptState.fresh orig).run vg history)
    rwa [MockState.inTest, List.foldl_append, dynamicMocks_append] at he
  have hms := distinct_dynamicMocks hc
  have hp := hs.grown.patched
  have hp' := ht.grown.patched
  rw [hdyn] at hp
  rw [hdyn'] at hp'
  have hnew : ∀ m ∈ dynamicMocks instr calls, m.mock ∉ registered history ++ nodes.flatten := by
    intro m hm
    refine (hs.ok m.mock ?_).2
    show m.mock ∈ s.dynamic
    rw [hdyn]
    exact List.mem_map_of_mem hm
  have hgone := unmock_gone_iff hp' hms hnew
  have hothers := unmock_others_iff instr hp hp'
  rw [Unmockable]
  split
  case isTrue hplt =>
    constructor
    · intro h
      exact hgone.mp h.gone
    · intro h
      exact ⟨hgone.mpr h, hothers.mpr fun hne => absurd hplt hne⟩
  case isFalse hplt =>
    constructor
    · intro h m hm
      refine ⟨fun hfun => ?_, hothers.mp h.others hplt m hm⟩
      have hfound := List.find?_some (hgone.mp h.gone m hm hfun)
      have haddr := hms.addr m hm
      rw [hfun] at haddr
      exact hplt (haddr.symm.trans (of_decide_eq_true hfound))
    · intro h
      exact ⟨hgone.mpr fun m hm hfun => absurd hfun (h m hm).1,
        hothers.mpr fun _ m hm => (h m hm).2⟩

end

/-- A function is mocked, unmocked, and mocked again. -/
theorem unmock_removes_one :
    let calls : List MockCall := [.mock 1 16, .unmock 16, .mock 2 16, .mock 3 32]
    let s := MockState.inTest false id [[⟨9, 16⟩]] calls (.fresh fun _ => insnPushRbp)
    dynamicMocks id calls = [⟨16, ⟨2, 16⟩⟩, ⟨32, ⟨3, 32⟩⟩] ∧
      Unmocked id 16 (dynamicMocks id calls) s.icept (s.call false id (.unmock 16)).icept := by
  intro calls s
  have hp : ∀ a, a ≠ 0 → Patchable (fun _ => insnPushRbp) a := fun a ha => ⟨ha, rfl⟩
  have hnone : ∀ c ∈ ([] : List InterceptCall),
      Patchable (fun _ => insnPushRbp) c.intercept.addr := fun c hc => absurd hc List.not_mem_nil
  refine ⟨by decide, (unmock_removes_iff hnone ?_ ?_).mpr ?_⟩
  · intro i hi
    obtain rfl : i = ⟨9, 16⟩ := by simpa using hi
    exact ⟨hp 16 (by decide), List.not_mem_nil⟩
  · have h₁ : MocksOk _ id ([] ++ [⟨9, 16⟩]) ([] ++ [.mock 1 16]) :=
      MocksOk.append (each_nil _) ⟨hp 16 (by decide), by decide⟩
    have h₂ := h₁.append (c := .unmock 16) trivial
    have h₃ := h₂.append (c := .mock 2 16) ⟨hp 16 (by decide), by decide⟩
    exact h₃.append (c := .mock 3 32) ⟨hp 32 (by decide), by decide⟩
  · show ∀ m ∈ dynamicMocks id calls, m.function = 16 →
      (dynamicMocks id calls).find? (fun d => d.mock.addr = 16) = some m
    decide

/-- A function that is mocked twice, and one that is called at 16 through a PLT and instrumented
at 32: a mock is left. -/
theorem unmock_leaves_mocks :
    let twice : List MockCall := [.mock 1 16, .mock 2 16]
    let s := MockState.inTest false id [] twice (.fresh fun _ => insnPushRbp)
    let plt : Addr → Addr := fun a => if a = 16 then 32 else a
    let t := MockState.inTest false plt [] [.mock 1 16] (.fresh fun _ => insnPushRbp)
    ¬ Unmocked id 16 (dynamicMocks id twice) s.icept (s.call false id (.unmock 16)).icept ∧
      ¬ Unmocked plt 16 (dynamicMocks plt [.mock 1 16]) t.icept
        (t.call false plt (.unmock 16)).icept := by
  refine ⟨fun h => ?_, fun h => ?_⟩
  · exact h.gone ⟨16, ⟨2, 16⟩⟩ (by decide) rfl 16 _ rfl (by decide)
  · exact h.gone ⟨16, ⟨1, 32⟩⟩ (by decide) rfl 32 _ rfl (by decide)

end NovaProva
