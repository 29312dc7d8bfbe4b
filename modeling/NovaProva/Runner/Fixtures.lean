import NovaProva.Tree.TestNode

/-!
# Runner — Fixtures

`runner_t::run_test_code`, which a child process runs: the setup functions of a test node and its
ancestors, the test function, the teardown functions, and the checks for leaked descriptors and
memory.  A function that throws an event, or a fixture that returns non-zero, leaves the loop over
the fixtures by `longjmp`, so what is left of that loop does not run.

The rules of `doc/manual/fixtures.rst` are `FixtureRules`.  They ask for every teardown function to
run once the test function has; `run_test_code` stops at the first teardown function that fails.
-/

namespace NovaProva

/-- A test node that has a test function: what the node and its ancestors hold, leafmost first. -/
structure TestCase where
  test : Func
  nodes : List NodeData
  deriving DecidableEq

/-! ### Running the functions -/

/-- `%d`. -/
def signedDecimal : Int → List UInt8
  | .ofNat n   => CString.decimal n
  | .negSucc n => CString.ascii "-" ++ CString.decimal (n + 1)

/-- The event thrown for a fixture function that returned `r`. -/
def fixtureEvent (f : Func) (r : Int) : Event :=
  Event.inSpiegelFunction {
    which := .fixture
    description := .text (.snprintf 64 (CString.ascii "fixture returned " ++ signedDecimal r)) }
    f.path f.name

/-- `run_function`: the event it throws, if it throws one. -/
def runFunction (ft : FuncType) (f : Func) : Option Event :=
  match f.outcome with
  | .threw ev => some ev
  | .returned r => if ft = .test then none else if r ≠ 0 then some (fixtureEvent f r) else none

/-- The loop of `run_fixtures`: the functions it called, and the event that was thrown out of
it. -/
def runFixtures (type : FuncType) : List Func → List (FuncType × Func) × Option Event
  | []      => ([], none)
  | f :: fs =>
      match runFunction type f with
      | some ev => ([(type, f)], some ev)
      | none    => ((type, f) :: (runFixtures type fs).1, (runFixtures type fs).2)

/-- What was done for one test: the functions called, the events raised and the result. -/
structure Ran where
  calls : List (FuncType × Func) := []
  events : List Event := []
  result : Result := .unknown
  deriving DecidableEq

namespace Ran

/-- `res = merge(res, raise_event(j, ev))`. -/
def raise (x : Ran) (ev : Event) : Ran :=
  { x with events := x.events ++ [ev.normalise], result := x.result.merge ev.normalise.getResult }

/-- An `np_try` block that calls `p.1` and may throw `p.2`, with its `np_catch`. -/
def tryCatch (x : Ran) (ft : FuncType) (p : List (FuncType × Func) × Option Event) : Ran :=
  p.2.elim { x with calls := x.calls ++ p.1 } fun ev =>
    { x with calls := x.calls ++ p.1 }.raise (ev.inFunctype ft.code)

end Ran

/-- What `run_test_code` observes besides the functions: the descriptors open before and after
(a closed one is the empty string), and Valgrind's counts of leaked bytes and of errors, which are
zero without Valgrind. -/
structure Observed where
  prefds : List CString := []
  postfds : List CString := []
  leaked : Nat := 0
  nerrors : Nat := 0

/-- The event of `descriptor_leaks` for the descriptor `fd`, if it changed. -/
def leakEvent (fd : Nat) (pre post : CString) : Option Event :=
  if pre = post then none
  else
    let msg :=
      if post = .empty then
        CString.ascii "test closed file descriptor " ++ CString.decimal fd ++
          CString.ascii " -> " ++ pre.bytes ++ CString.ascii "\n"
      else if pre = .empty then
        CString.ascii "test leaked file descriptor " ++ CString.decimal fd ++
          CString.ascii " -> " ++ post.bytes ++ CString.ascii "\n"
      else
        CString.ascii "test reopened file descriptor " ++ CString.decimal fd ++
          CString.ascii " -> " ++ pre.bytes ++ CString.ascii " as " ++ post.bytes ++
          CString.ascii "\n"
    some { which := .fdleak, description := .text (.snprintf 1024 msg) }

/-- `descriptor_leaks`. -/
def descriptorLeaks (ob : Observed) (x : Ran) : Ran :=
  (List.range (max ob.prefds.length ob.postfds.length)).foldl (fun x fd =>
    (leakEvent fd (ob.prefds[fd]?.getD .empty) (ob.postfds[fd]?.getD .empty)).elim x x.raise) x

/-- `valgrind_errors`. -/
def valgrindErrors (ob : Observed) (x : Ran) : Ran :=
  let x := if ob.leaked ≠ 0 then x.raise {
      which := .valgrind
      description := .text (.snprintf 1024
        (CString.decimal ob.leaked ++ CString.ascii " bytes of memory leaked")) }
    else x
  if ob.nerrors ≠ 0 then x.raise {
      which := .valgrind
      description := .text (.snprintf 1024 (CString.decimal ob.nerrors ++
        CString.ascii " unsuppressed errors found by valgrind")) }
  else x

/-- `run_test_code` up to the checks for leaks. -/
def runFunctions (tn : TestCase) : Ran :=
  let x := Ran.tryCatch {} .before (runFixtures .before (getFixtures tn.nodes .before))
  if x.result = .unknown then
    let x := x.tryCatch .test ([(.test, tn.test)], runFunction .test tn.test)
    let x := x.tryCatch .after (runFixtures .after (getFixtures tn.nodes .after))
    { x with result := x.result.merge .pass }
  else x

/-- `run_test_code`. -/
def runTestCode (ob : Observed) (tn : TestCase) : Ran :=
  valgrindErrors ob (descriptorLeaks ob (runFunctions tn))

/-! ### The rules -/

/-- The setup functions, rootmost first. -/
def TestCase.setups (tn : TestCase) : List Func := tn.nodes.reverse.filterMap (·.before)

/-- The teardown functions, leafmost first. -/
def TestCase.teardowns (tn : TestCase) : List Func := tn.nodes.filterMap (·.after)

/-- A fixture function that fails does not return zero. -/
def Func.returnsZero (f : Func) : Bool := f.outcome = .returned 0

/-- The function was called as `ft` and failed: it threw an event that fails the test, or it is a
fixture and returned non-zero. -/
def Func.failed (ft : FuncType) (f : Func) : Bool :=
  match f.outcome with
  | .threw ev   => ev.getResult = .fail
  | .returned r => ft ≠ .test && r ≠ 0

/-- The fixture rules for what was done for a test. -/
structure FixtureRules (tn : TestCase) (x : Ran) : Prop where
  /-- a setup function that fails is the last function called -/
  setupFails : ∀ fs f fs', tn.setups = fs ++ f :: fs' → (∀ g ∈ fs, g.returnsZero = true) →
    f.returnsZero = false → x.calls = (fs ++ [f]).map (FuncType.before, ·)
  /-- otherwise the test function and every teardown function are called -/
  allCalled : (∀ f ∈ tn.setups, f.returnsZero = true) →
    x.calls = tn.setups.map (FuncType.before, ·) ++ (FuncType.test, tn.test) ::
      tn.teardowns.map (FuncType.after, ·)
  failedIsFail : ∀ c ∈ x.calls, c.2.failed c.1 = true → x.result = .fail

/-- When `run_test_code` keeps the rules: a setup function that fails says so with a known result,
and otherwise no teardown function fails but the last, the rootmost one. -/
def TestCase.Kept (tn : TestCase) : Prop :=
  match tn.setups.find? fun f => !f.returnsZero with
  | some f => ∀ ev, f.outcome = .threw ev → ev.getResult ≠ .unknown
  | none   => ∀ f ∈ tn.teardowns.dropLast, f.returnsZero = true

/-! ### Which functions are called -/

theorem getFixtures_setups (tn : TestCase) : getFixtures tn.nodes .before = tn.setups :=
  getFixtures_before tn.nodes

theorem getFixtures_teardowns (tn : TestCase) : getFixtures tn.nodes .after = tn.teardowns :=
  getFixtures_after tn.nodes

section Fixtures

variable {ft : FuncType} {f : Func} {fs : List Func}

theorem runFunction_eq_none_iff (hft : ft ≠ .test) :
    runFunction ft f = none ↔ f.returnsZero = true := by
  rw [runFunction, Func.returnsZero]
  cases f.outcome with
  | threw ev => simp
  | returned r =>
      by_cases hr : r = 0
      · simp [hr]
      · simp [hr, hft]

/-- A failing function throws an event that fails the test. -/
theorem runFunction_of_failed (h : f.failed ft = true) :
    ∃ ev, runFunction ft f = some ev ∧ ev.getResult = .fail := by
  rw [Func.failed] at h
  rw [runFunction]
  cases ho : f.outcome with
  | threw ev =>
      rw [ho] at h
      exact ⟨ev, rfl, of_decide_eq_true h⟩
  | returned r =>
      rw [ho] at h
      simp only [Bool.and_eq_true, decide_eq_true_eq] at h
      exact ⟨fixtureEvent f r, by simp [h.1, h.2], rfl⟩

/-- The event of a fixture function has an unknown result only if the function threw it so. -/
theorem getResult_runFunction {ev : Event} (h : runFunction ft f = some ev) :
    ev.getResult = .unknown ↔ ∃ ev', f.outcome = .threw ev' ∧ ev'.getResult = .unknown := by
  rw [runFunction] at h
  cases ho : f.outcome with
  | threw ev' =>
      rw [ho] at h
      cases h
      constructor
      · intro hu
        exact ⟨ev, rfl, hu⟩
      · rintro ⟨ev', ⟨⟩, hu⟩
        exact hu
  | returned r =>
      rw [ho] at h
      simp only at h
      split at h
      · cases h
      · split at h
        · cases h
          constructor
          · intro hu
            cases hu
          · rintro ⟨ev', ⟨⟩, -⟩
        · cases h

/-- A loop none of whose functions fails calls them all. -/
theorem runFixtures_of_returnsZero (hft : ft ≠ .test) (h : ∀ f ∈ fs, f.returnsZero = true) :
    runFixtures ft fs = (fs.map (ft, ·), none) := by
  induction fs with
  | nil => rfl
  | cons f fs ih =>
      have hf := (runFunction_eq_none_iff hft).mpr (h f List.mem_cons_self)
      rw [runFixtures, hf, ih fun g hg => h g (List.mem_cons_of_mem _ hg)]
      rfl

/-- The first function that fails ends the loop. -/
theorem runFixtures_of_split (hft : ft ≠ .test) {fs' : List Func} {ev : Event}
    (h : ∀ g ∈ fs, g.returnsZero = true) (hf : runFunction ft f = some ev) :
    runFixtures ft (fs ++ f :: fs') = ((fs ++ [f]).map (ft, ·), some ev) := by
  induction fs with
  | nil =>
      rw [List.nil_append, runFixtures, hf]
      rfl
  | cons g fs ih =>
      have hg := (runFunction_eq_none_iff hft).mpr (h g List.mem_cons_self)
      rw [List.cons_append, runFixtures, hg, ih fun g hg => h g (List.mem_cons_of_mem _ hg)]
      rfl

/-- All functions are called exactly if none fails but the last. -/
theorem runFixtures_calls_eq_iff (hft : ft ≠ .test) :
    (runFixtures ft fs).1 = fs.map (ft, ·) ↔ ∀ f ∈ fs.dropLast, f.returnsZero = true := by
  induction fs with
  | nil => simp [runFixtures]
  | cons f fs ih =>
      cases fs with
      | nil =>
          rw [runFixtures]
          cases runFunction ft f <;> simp [runFixtures]
      | cons g fs =>
          rw [runFixtures, List.dropLast_cons_cons]
          cases hf : runFunction ft f with
          | some ev =>
              have hz : ¬ f.returnsZero = true := by
                rw [← runFunction_eq_none_iff hft, hf]
                simp
              simp [hz]
          | none =>
              have hz := (runFunction_eq_none_iff hft).mp hf
              simp only [List.map_cons, List.cons.injEq, true_and, List.forall_mem_cons, hz]
              exact ih

/-- A function that was called and failed threw its event out of the loop. -/
theorem runFixtures_of_failed {c : FuncType × Func} (hc : c ∈ (runFixtures ft fs).1)
    (hf : c.2.failed c.1 = true) :
    ∃ ev, (runFixtures ft fs).2 = some ev ∧ ev.getResult = .fail := by
  induction fs with
  | nil => cases hc
  | cons f fs ih =>
      rw [runFixtures] at hc ⊢
      cases hr : runFunction ft f with
      | some ev =>
          rw [hr] at hc
          cases List.mem_singleton.mp hc
          obtain ⟨ev', hev, hfail⟩ := runFunction_of_failed hf
          rw [hr] at hev
          cases hev
          exact ⟨ev, rfl, hfail⟩
      | none =>
          rw [hr] at hc
          rcases List.mem_cons.mp hc with rfl | hc
          · obtain ⟨ev', hev, -⟩ := runFunction_of_failed hf
            rw [hr] at hev
            cases hev
          · exact ih hc

end Fixtures

/-! ### What is done for a test -/

namespace Ran

@[simp] theorem raise_result (x : Ran) (ev : Event) :
    (x.raise ev).result = x.result.merge ev.getResult := by
  rw [raise, Event.getResult_normalise]

theorem tryCatch_calls (x : Ran) (ft : FuncType) (p : List (FuncType × Func) × Option Event) :
    (x.tryCatch ft p).calls = x.calls ++ p.1 := by
  rw [tryCatch]
  cases p.2 <;> rfl

theorem tryCatch_result (x : Ran) (ft : FuncType) (p : List (FuncType × Func) × Option Event) :
    (x.tryCatch ft p).result = p.2.elim x.result fun ev => x.result.merge ev.getResult := by
  rw [tryCatch]
  cases p.2 with
  | none => rfl
  | some ev => exact raise_result _ _

end Ran

/-- The checks for leaks call no function, and never improve a result. -/
theorem runTestCode_spec (ob : Observed) (tn : TestCase) :
    (runTestCode ob tn).calls = (runFunctions tn).calls ∧
      ((runFunctions tn).result = .fail → (runTestCode ob tn).result = .fail) := by
  have hleaks : ∀ (fds : List Nat) (x : Ran),
      let y := fds.foldl (fun x fd =>
        (leakEvent fd (ob.prefds[fd]?.getD .empty) (ob.postfds[fd]?.getD .empty)).elim x x.raise) x
      y.calls = x.calls ∧ (x.result = .fail → y.result = .fail) := by
    intro fds
    induction fds with
    | nil => intro x; exact ⟨rfl, id⟩
    | cons fd fds ih =>
        intro x
        simp only [List.foldl_cons]
        cases leakEvent fd (ob.prefds[fd]?.getD .empty) (ob.postfds[fd]?.getD .empty) with
        | none => exact ih x
        | some ev =>
            obtain ⟨h₁, h₂⟩ := ih (x.raise ev)
            exact ⟨h₁, fun hx => h₂ (by simp [hx])⟩
  obtain ⟨h₁, h₂⟩ := hleaks (List.range (max ob.prefds.length ob.postfds.length)) (runFunctions tn)
  rw [runTestCode, valgrindErrors, descriptorLeaks]
  refine ⟨?_, fun hf => ?_⟩
  · rw [← h₁]
    split_ifs <;> rfl
  · have hr := h₂ hf
    split_ifs <;> simp [hr]

theorem exists_split_of_find {fs : List Func} {f : Func}
    (h : fs.find? (fun f => !f.returnsZero) = some f) :
    f.returnsZero = false ∧
      ∃ as bs, fs = as ++ f :: bs ∧ ∀ g ∈ as, g.returnsZero = true := by
  obtain ⟨hf, as, bs, he, has⟩ := List.find?_eq_some_iff_append.mp h
  exact ⟨by simpa using hf, as, bs, he, by simpa using has⟩

/-- The first function that fails is where it is. -/
theorem split_unique {as as' bs bs' : List Func} {f f' : Func}
    (h : as ++ f :: bs = as' ++ f' :: bs') (ha : ∀ g ∈ as, g.returnsZero = true)
    (hf : f.returnsZero = false) (ha' : ∀ g ∈ as', g.returnsZero = true)
    (hf' : f'.returnsZero = false) : as = as' ∧ f = f' := by
  induction as generalizing as' with
  | nil =>
      cases as' with
      | nil => exact ⟨rfl, (List.cons.inj h).1⟩
      | cons a as' =>
          have he := (List.cons.inj h).1
          rw [he, ha' a List.mem_cons_self] at hf
          cases hf
  | cons a as ih =>
      cases as' with
      | nil =>
          have he := (List.cons.inj h).1
          rw [← he, ha a List.mem_cons_self] at hf'
          cases hf'
      | cons a' as' =>
          obtain ⟨he, ht⟩ := List.cons.inj h
          obtain ⟨h₁, h₂⟩ := ih ht (fun g hg => ha g (List.mem_cons_of_mem _ hg))
            (fun g hg => ha' g (List.mem_cons_of_mem _ hg))
          exact ⟨by rw [he, h₁], h₂⟩

/-- The result of the event that a function threw, if any, is one of the four. -/
theorem isNamed_elim (o : Option Event) : (o.elim .unknown Event.getResult).IsNamed := by
  cases o with
  | none => decide
  | some ev => exact ev.isNamed_getResult

/-- All setup functions return zero: the test function is called, and the teardown functions up to
the first that fails. -/
theorem runFunctions_of_setups {tn : TestCase} (h : ∀ f ∈ tn.setups, f.returnsZero = true) :
    (runFunctions tn).calls = tn.setups.map (FuncType.before, ·) ++ (FuncType.test, tn.test) ::
      (runFixtures .after tn.teardowns).1 ∧
    ∀ c ∈ (runFunctions tn).calls, c.2.failed c.1 = true → (runFunctions tn).result = .fail := by
  have hb := runFixtures_of_returnsZero (by decide : FuncType.before ≠ .test) h
  have hcalls : (runFunctions tn).calls = tn.setups.map (FuncType.before, ·) ++
      (FuncType.test, tn.test) :: (runFixtures .after tn.teardowns).1 := by
    rw [runFunctions, getFixtures_setups, hb, getFixtures_teardowns]
    simp [Ran.tryCatch_calls, Ran.tryCatch_result]
  have hres : (runFunctions tn).result =
      (((runFixtures .after tn.teardowns).2.elim
        ((runFunction .test tn.test).elim .unknown fun ev => ev.getResult)
        fun ev => ((runFunction .test tn.test).elim .unknown fun ev => ev.getResult).merge
          ev.getResult)).merge .pass := by
    rw [runFunctions, getFixtures_setups, hb, getFixtures_teardowns]
    simp [Ran.tryCatch_result]
  have hpass : Result.merge .fail .pass = .fail := rfl
  refine ⟨hcalls, fun c hc hf => ?_⟩
  rw [hcalls] at hc
  rw [hres]
  rcases List.mem_append.mp hc with hc | hc
  · -- a setup function that returned zero has not failed
    obtain ⟨f, hm, rfl⟩ := List.mem_map.mp hc
    have hz : f.outcome = .returned 0 := of_decide_eq_true (h f hm)
    rw [Func.failed, hz] at hf
    cases hf
  · rcases List.mem_cons.mp hc with rfl | hc
    · obtain ⟨ev, hev, hfail⟩ := runFunction_of_failed hf
      rw [hev]
      cases (runFixtures .after tn.teardowns).2 <;> simp [hfail, hpass]
    · obtain ⟨ev, hev, hfail⟩ := runFixtures_of_failed hc hf
      rw [hev, Option.elim_some, hfail, (isNamed_elim _).merge_fail, hpass]

/-- A setup function fails: it is the last one called, unless its event's result is unknown, when
the test function is called after it. -/
theorem runFunctions_of_split {tn : TestCase} {fs fs' : List Func} {f : Func} {ev : Event}
    (hs : tn.setups = fs ++ f :: fs') (hz : ∀ g ∈ fs, g.returnsZero = true)
    (hf : runFunction .before f = some ev) :
    if ev.getResult = .unknown then
      ∃ cs, (runFunctions tn).calls =
        (fs ++ [f]).map (FuncType.before, ·) ++ (FuncType.test, tn.test) :: cs
    else (runFunctions tn).calls = (fs ++ [f]).map (FuncType.before, ·) ∧
      (runFunctions tn).result = ev.getResult := by
  have hb : runFixtures .before (fs ++ f :: fs') = _ := runFixtures_of_split (by decide) hz hf
  have hx : (Ran.tryCatch {} .before (runFixtures .before (getFixtures tn.nodes .before))).result =
      ev.getResult := by
    rw [getFixtures_setups, hs, hb, Ran.tryCatch_result]
    simp
  split
  case isTrue hu =>
    refine ⟨(runFixtures .after (getFixtures tn.nodes .after)).1, ?_⟩
    rw [runFunctions, if_pos (hx.trans hu)]
    simp only [Ran.tryCatch_calls, getFixtures_setups, hs, hb, List.nil_append,
      List.append_assoc, List.singleton_append]
  case isFalse hu =>
    rw [runFunctions, if_neg (hx ▸ hu)]
    refine ⟨?_, hx⟩
    rw [Ran.tryCatch_calls, getFixtures_setups, hs, hb]
    rfl

/-- **The fixture rules are kept** exactly when a failing setup function fails with a known result
and, when no setup function fails, no teardown function fails but the rootmost one. -/
theorem run_test_code_keeps_rules_iff (ob : Observed) (tn : TestCase) :
    FixtureRules tn (runTestCode ob tn) ↔ tn.Kept := by
  obtain ⟨hcalls, hfail⟩ := runTestCode_spec ob tn
  rw [TestCase.Kept]
  cases hfind : tn.setups.find? fun f => !f.returnsZero with
  | some f =>
      obtain ⟨hf, fs, fs', hs, hz⟩ := exists_split_of_find hfind
      obtain ⟨ev, hev⟩ : ∃ ev, runFunction .before f = some ev := by
        cases hr : runFunction .before f with
        | some ev => exact ⟨ev, rfl⟩
        | none =>
            rw [(runFunction_eq_none_iff (by decide)).mp hr] at hf
            cases hf
      have hsplit := runFunctions_of_split hs hz hev
      have hiff := getResult_runFunction hev
      constructor
      · intro h ev' ho hu
        rw [if_pos (hiff.mpr ⟨ev', ho, hu⟩)] at hsplit
        obtain ⟨cs, hc⟩ := hsplit
        have hlen := congrArg List.length (h.setupFails fs f fs' hs hz hf)
        rw [hcalls, hc] at hlen
        simp at hlen
      · intro h
        have hu : ev.getResult ≠ .unknown := by
          intro hu
          obtain ⟨ev', ho, hu'⟩ := hiff.mp hu
          exact h ev' ho hu'
        rw [if_neg hu] at hsplit
        refine ⟨fun gs g gs' hs' hz' hg => ?_, fun hall => ?_, fun c hc hcf => ?_⟩
        · obtain ⟨rfl, rfl⟩ := split_unique (hs.symm.trans hs') hz hf hz' hg
          exact hcalls.trans hsplit.1
        · have := hall f (by rw [hs]; simp)
          rw [hf] at this
          cases this
        · refine hfail (hsplit.2.trans ?_)
          rw [hcalls, hsplit.1] at hc
          obtain ⟨g, hg, rfl⟩ := List.mem_map.mp hc
          obtain ⟨ev', hev', hr⟩ := runFunction_of_failed hcf
          rcases List.mem_append.mp hg with hg | hg
          · have hg := (runFunction_eq_none_iff (by decide : FuncType.before ≠ .test)).mpr (hz g hg)
            rw [hg] at hev'
            cases hev'
          · rw [List.mem_singleton.mp hg, hev] at hev'
            cases hev'
            exact hr
  | none =>
      have hz : ∀ f ∈ tn.setups, f.returnsZero = true := fun f hf => by
        simpa using List.find?_eq_none.mp hfind f hf
      obtain ⟨hc, hres⟩ := runFunctions_of_setups hz
      rw [← runFixtures_calls_eq_iff (by decide : FuncType.after ≠ .test)]
      constructor
      · intro h
        have he := h.allCalled hz
        rw [hcalls, hc] at he
        exact (List.cons.inj (List.append_cancel_left he)).2
      · intro h
        refine ⟨fun gs g gs' hs' _ hg => ?_, fun _ => ?_, fun c hcm hcf => ?_⟩
        · rw [hz g (by rw [hs']; simp)] at hg
          cases hg
        · rw [hcalls, hc, h]
        · rw [hcalls] at hcm
          exact hfail (hres c hcm hcf)

/-- A teardown function that fails keeps its ancestors' teardown functions from running. -/
theorem run_test_code_skips_teardown :
    ∃ tn, ¬ FixtureRules tn (runTestCode {} tn) := by
  let f (r : Int) : Func := ⟨.empty, .empty, .returned r⟩
  let tn : TestCase := ⟨f 0, [{ after := some (f 1) }, { after := some (f 0) }]⟩
  refine ⟨tn, fun h => ?_⟩
  have hall := h.allCalled (by decide)
  revert hall
  decide

end NovaProva
