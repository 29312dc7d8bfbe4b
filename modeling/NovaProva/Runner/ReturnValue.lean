import NovaProva.Runner.Effects

/-!
# Runner — Return value

What `run_tests` returns: whether `nfailed_` is zero.  `reap_children` counts the jobs that end with
`R_FAIL` into it, and nothing sets it back, so that it counts those of all calls on the runner,
modulo 2³² (`Runner.Used.tallied`).

* `RunTests`: a call that returns.
* `Runner.Used`: the runners that calls leave behind.
* `run_tests_reports_own_failures_iff`: when the value is about the jobs of the call itself.
-/

namespace NovaProva

variable {J : Type} {r r' : Runner J} {plan : List J} {s s' : Sys J} {l : Label}

/-! ### Failures -/

/-- The listeners are told that a job failed. -/
def Callback.isFailure : Callback J → Bool
  | .endJob _ .fail => true
  | _ => false

/-- The number of jobs that ended with `R_FAIL`. -/
def failures (cs : List (Callback J)) : Nat := cs.countP Callback.isFailure

@[simp] theorem failures_append (cs ds : List (Callback J)) :
    failures (cs ++ ds) = failures cs + failures ds := List.countP_append

theorem failures_eq_zero {cs : List (Callback J)} (h : ∀ c ∈ cs, c.isFailure = false) :
    failures cs = 0 := by
  refine List.countP_eq_zero.mpr fun c hc => ?_
  rw [h c hc]
  exact Bool.false_ne_true

theorem failures_timeoutCalls (now : Int) (cs : List (Child J)) :
    failures (cs.filterMap (Child.timeoutCall now)) = 0 := by
  refine failures_eq_zero fun cb hcb => ?_
  obtain ⟨c, -, hc⟩ := List.mem_filterMap.mp hcb
  unfold Child.timeoutCall at hc
  split at hc
  · split at hc <;> cases hc
    rfl
  · cases hc

theorem failures_reapCalls (c : Child J) (st : Status) :
    failures (c.reapCalls st) = if c.reapResult st = .fail then 1 else 0 := by
  rw [Child.reapCalls, failures_append]
  have hevents : failures ((exitEvent c.pid st).toList.map fun ev =>
      Callback.addEvent c.job ev.normalise) = 0 := by
    cases exitEvent c.pid st <;> rfl
  rw [hevents, Nat.zero_add]
  cases c.reapResult st <;> rfl

/-! ### The counter -/

/-- `nfailed_` is the number of failures the listeners were told of. -/
def Runner.Tallied (r : Runner J) : Prop := r.nfailed = failures r.calls % 2 ^ 32

namespace Runner.Tallied

/-- More calls without a failure. -/
theorem told (cs : List (Callback J)) (h : r.Tallied) (hn : r'.nfailed = r.nfailed)
    (hcalls : r'.calls = r.calls ++ cs) (hcs : failures cs = 0) : r'.Tallied := by
  show r'.nfailed = failures r'.calls % 2 ^ 32
  rw [hn, hcalls, failures_append, hcs, Nat.add_zero]
  exact h

theorem same (h : r.Tallied) (hn : r'.nfailed = r.nfailed) (hcalls : r'.calls = r.calls) :
    r'.Tallied :=
  h.told [] hn (by rw [hcalls, List.append_nil]) rfl

theorem dispatch (h : r.Tallied) (cb : Callback J) (hcb : cb.isFailure = false) :
    (r.dispatch cb).Tallied :=
  h.told [cb] rfl rfl (failures_eq_zero fun c hc => by rw [List.mem_singleton.mp hc, hcb])

theorem reapChild (h : r.Tallied) (c : Child J) (st : Status) : (r.reapChild c st).Tallied := by
  have hn : (r.reapChild c st).nfailed =
      (r.nfailed + if c.reapResult st = .fail then 1 else 0) % 2 ^ 32 := by
    have hsame : ((exitEvent c.pid st).elim r (r.raiseEvent c.job)).nfailed = r.nfailed := by
      cases exitEvent c.pid st <;> rfl
    rw [← hsame]
    rfl
  show (r.reapChild c st).nfailed = failures (r.reapChild c st).calls % 2 ^ 32
  rw [hn, Runner.reapChild_calls, failures_append, failures_reapCalls, show r.nfailed = _ from h,
    Nat.mod_add_mod]

theorem reap (h : r.Tallied) (pid : Pid) (st : Status) : (r.reap pid st).Tallied := by
  rw [Runner.reap]
  split
  · exact h
  · exact h.reapChild _ st

theorem handleTimeouts (h : r.Tallied) (now : Int) (cs : List (Child J)) :
    (handleTimeouts now r cs).1.Tallied := by
  rw [handleTimeouts_eq]
  exact h.told _ rfl rfl (failures_timeoutCalls now cs)

end Runner.Tallied

theorem tallied_endRound (h : s.runner.Tallied) (nz nf : Nat) :
    (s.endRound nz nf).runner.Tallied := by
  rw [Sys.endRound]
  split
  · exact h.same rfl rfl
  · exact h

theorem tallied_inputStep {nz i nf : Nat} {pfd : List Revents} (h : s.runner.Tallied)
    (hs : s.inputStep nz i pfd nf = some s') : s'.runner.Tallied := by
  rcases inputStep_cases hs with ⟨-, rfl⟩ | ⟨c, -, -, rfl⟩ | ⟨c, v, pfd', s₁, c₁, -, -, -, h₁, rfl⟩
  · exact tallied_endRound h nz nf
  · exact h
  · have hs₁ : s₁.runner.Tallied := by
      split at h₁
      · obtain ⟨p, k, -, -, -, rfl⟩ := input_eq_some h₁
        cases k.event with
        | none => exact h.same rfl rfl
        | some ev => exact (h.dispatch (.addEvent c.job ev) rfl).same rfl rfl
      · cases h₁
        exact h
    exact hs₁.same rfl rfl

theorem tallied_pollStep {nz : Nat} {start : Int} {o : PollOutcome} (h : s.runner.Tallied)
    (hs : s.pollStep nz start o = some s') : s'.runner.Tallied := by
  rcases pollStep_cases hs with ⟨-, rfl⟩ | ⟨-, -, rfl | ⟨nz', -, -, rfl⟩ | ⟨nz', now, -, rfl⟩ |
      ⟨nz', -, rfl⟩⟩
  · exact h
  · exact h
  · exact h
  · exact (h.handleTimeouts now s.runner.children).same rfl rfl
  · exact h

theorem tallied_waitOver (h : s.runner.Tallied)
    (hs : s.step .waitNone = some s' ∨ s.step .waitError = some s') : s'.runner.Tallied := by
  rcases waitOver_cases hs with ⟨nz, num, -, rfl⟩ | ⟨pid, -, rfl⟩ | ⟨-, rfl⟩
  · exact tallied_endRound h nz num
  · exact h
  · exact h.dispatch _ rfl

/-- **The counter is kept by every step.** -/
theorem tallied_step (h : s.runner.Tallied) (hs : s.step l = some s') : s'.runner.Tallied := by
  cases l with
  | fork pid now =>
      obtain ⟨item, todo, -, -, -, -, rfl⟩ := fork_eq_some hs
      exact (h.dispatch (.beginJob ⟨s.runner.nextId, item⟩) rfl).same rfl rfl
  | forkFails =>
      obtain ⟨item, todo, -, -, -, rfl⟩ := forkFails_eq_some hs
      exact h.dispatch _ rfl
  | poll start o =>
      obtain ⟨nz, -, hs⟩ := poll_eq_some hs
      exact tallied_pollStep h hs
  | waited pid =>
      obtain ⟨p, st, -, -, ⟨nz, num, -, rfl⟩ | ⟨-, rfl⟩⟩ := waitedStep_cases hs
      · exact h.reap p.pid st
      · exact h.reap p.pid st
  | waitNone => exact tallied_waitOver h (.inl hs)
  | waitStopped => exact waitStopped_eq hs ▸ h
  | waitError => exact tallied_waitOver h (.inr hs)
  | tau =>
      rcases tau_cases hs with ⟨-, -, ⟨-, -, rfl⟩ | ⟨-, -, rfl⟩ | ⟨-, rfl⟩⟩ |
          ⟨nz, i, pfd, nf, -, hs⟩ | ⟨-, ⟨-, rfl⟩ | ⟨c, -, rfl⟩⟩
      · exact h
      · exact h.dispatch _ rfl
      · exact h
      · exact tallied_inputStep h hs
      · exact h
      · exact h
  | _ =>
      rw [(env_frame hs trivial).1]
      exact h

/-! ### Calls on one runner -/

/-- A call of `run_tests` on `r` that returns and leaves `r'`. -/
def RunTests (r : Runner J) (plan : List J) (r' : Runner J) : Prop :=
  ∃ s, Run Sys.step (fun _ _ => True) (Sys.start r plan) s ∧ s.pc = .done ∧ s.runner = r'

/-- `!!nfailed_`, which `run_tests` returns. -/
def Runner.returnValue (r : Runner J) : Int := if r.nfailed = 0 then 0 else 1

/-- The runners there are: a new one, and what calls make of it. -/
inductive Runner.Used : Runner J → Prop where
  | new (timeout : Int) (nextId : Nat) : Used { timeout := timeout, nextId := nextId }
  | setConcurrency {r : Runner J} (h : Used r) (cpus n : Int) :
      Used { r with maxchildren := NovaProva.setConcurrency cpus n }
  | runTests {r r' : Runner J} {plan : List J} (h : Used r) (hrun : RunTests r plan r') : Used r'

theorem RunTests.tallied (hrun : RunTests r plan r') (h : r.Tallied) : r'.Tallied := by
  obtain ⟨s, hs, -, rfl⟩ := hrun
  refine hs.invariant (I := fun s => s.runner.Tallied) ?_ fun u l v hu _ hstep =>
    tallied_step hu hstep
  exact (h.dispatch .begin rfl).same rfl rfl

/-- Across all calls, `nfailed_` counts the jobs that failed. -/
theorem Runner.Used.tallied (h : r.Used) : r.Tallied := by
  induction h with
  | new timeout nextId => exact (Nat.zero_mod _).symm
  | setConcurrency h cpus n ih => exact ih.same rfl rfl
  | runTests h hrun ih => exact hrun.tallied ih

/-- What the listeners are told from `r` to `r'`. -/
def toldSince (r r' : Runner J) : List (Callback J) := r'.calls.drop r.calls.length

/-- A job that was begun between `r` and `r'` ended with `R_FAIL`. -/
def OwnFailure (r r' : Runner J) : Prop :=
  ∃ j, .beginJob j ∈ toldSince r r' ∧ .endJob j .fail ∈ toldSince r r'

theorem step_calls (hs : s.step l = some s') : s.runner.calls <+: s'.runner.calls := by
  cases step_effect hs with
  | quiet pc jobs h => exact ⟨_, h.calls.symm⟩
  | begins label pc pc' room before after nextId job state result h => exact ⟨_, h.calls.symm⟩
  | beginFails pc pc' room jobs h => exact ⟨_, h.calls.symm⟩
  | timesOut label pc pc' jobs h => exact ⟨_, h.calls.symm⟩
  | reads label pc pc' at_i unfinished follows named jobs h => exact ⟨_, h.calls.symm⟩
  | reaps st label pc split jobs h => exact ⟨_, h.calls.symm⟩
  | finishes pc pc' jobs h => exact ⟨_, h.calls.symm⟩

theorem RunTests.calls (hrun : RunTests r plan r') : r'.calls = r.calls ++ toldSince r r' := by
  obtain ⟨s, hs, -, rfl⟩ := hrun
  have hprefix : r.calls <+: s.runner.calls :=
    hs.invariant (I := fun s => r.calls <+: s.runner.calls) ⟨[.begin], rfl⟩
      fun u l v hu _ hstep => hu.trans (step_calls hstep)
  obtain ⟨cs, hcs⟩ := hprefix
  rw [toldSince, ← hcs, List.drop_left]

/-- `run_tests` returns zero where the failures of all calls so far are a multiple of 2³². -/
theorem RunTests.returnValue_eq_zero_iff (hr : r.Used) (hrun : RunTests r plan r') :
    r'.returnValue = 0 ↔ 2 ^ 32 ∣ failures r.calls + failures (toldSince r r') := by
  have htally : r'.nfailed = failures r'.calls % 2 ^ 32 := hrun.tallied hr.tallied
  rw [hrun.calls, failures_append] at htally
  rw [Runner.returnValue, htally, Nat.dvd_iff_mod_eq_zero]
  split
  case isTrue h =>
    exact iff_of_true rfl h
  case isFalse h =>
    exact iff_of_false one_ne_zero h

/-- **What `run_tests` returns is about the call** exactly if, where a job of the call fails, the
failures on this runner so far are no multiple of 2³², and where none does, they are: no job of any
call has failed, unless 2³² did.  One that failed in an earlier call makes a call without failures
return 1. -/
theorem run_tests_reports_own_failures_iff (hr : r.Used) (hrun : RunTests r plan r') :
    (r'.returnValue ≠ 0 ↔ OwnFailure r r') ↔
      OwnFailure r r' ∧ ¬ 2 ^ 32 ∣ failures r.calls + failures (toldSince r r') ∨
      ¬ OwnFailure r r' ∧ 2 ^ 32 ∣ failures r.calls + failures (toldSince r r') := by
  rw [Ne, hrun.returnValue_eq_zero_iff hr]
  tauto

/-! ### Two calls -/

/-- A call for one job, whose child exits with `st`. -/
def oneJobRun (pid : Pid) (st : Status) : List Label :=
  [.fork pid 0, .tau, .close pid, .exit pid st, .poll 0 .ready, .tau, .tau, .tau, .waited pid,
    .waitNone, .tau, .tau]

/-- The runner behind it. -/
def afterOneJob (r : Runner Unit) (pid : Pid) (st : Status) : Option (Runner Unit) :=
  ((execute Sys.step (fun _ _ => true) (Sys.start r [()]) (oneJobRun pid st)).filter
    (·.pc = .done)).map (·.runner)

theorem runTests_of_afterOneJob {r r' : Runner Unit} (pid : Pid) (st : Status)
    (h : afterOneJob r pid st = some r') : RunTests r [()] r' := by
  obtain ⟨s, hs, rfl⟩ := Option.map_eq_some_iff.mp h
  obtain ⟨hs, hpc⟩ := Option.filter_eq_some_iff.mp hs
  refine ⟨s, ?_, of_decide_eq_true hpc, rfl⟩
  exact (run_of_execute .refl hs).mono fun _ _ _ => trivial

/-- One job that fails, and then one that passes: both calls return 1. -/
theorem two_calls : ∃ r₁ r₂ : Runner Unit, RunTests {} [()] r₁ ∧ RunTests r₁ [()] r₂ ∧
    r₁.calls = [.begin, .beginJob ⟨1, ()⟩,
      .addEvent ⟨1, ()⟩ ((exitEvent 100 (.exited 1)).getD {}).normalise,
      .endJob ⟨1, ()⟩ .fail, .finish] ∧
    toldSince r₁ r₂ = [.begin, .beginJob ⟨2, ()⟩, .endJob ⟨2, ()⟩ .pass, .finish] ∧
    r₁.returnValue = 1 ∧ r₂.returnValue = 1 := by
  refine ⟨_, _, runTests_of_afterOneJob 100 (.exited 1) rfl,
    runTests_of_afterOneJob 101 (.exited 0) rfl, ?_, ?_, ?_, ?_⟩
  all_goals decide +kernel

theorem ownFailure_first {r₁ : Runner Unit} (h : r₁.calls = [.begin, .beginJob ⟨1, ()⟩,
      .addEvent ⟨1, ()⟩ ((exitEvent 100 (.exited 1)).getD {}).normalise,
      .endJob ⟨1, ()⟩ .fail, .finish]) : OwnFailure {} r₁ := by
  refine ⟨⟨1, ()⟩, ?_, ?_⟩
  · show _ ∈ r₁.calls
    rw [h]
    simp
  · show _ ∈ r₁.calls
    rw [h]
    simp

/-- The first of them does so for its own job. -/
theorem run_tests_reports_own_failures_first : ∃ r₁ : Runner Unit,
    RunTests {} [()] r₁ ∧ OwnFailure {} r₁ ∧ r₁.returnValue ≠ 0 := by
  obtain ⟨r₁, r₂, hrun, -, hcalls, -⟩ := two_calls
  have hown := ownFailure_first hcalls
  have hone : failures (toldSince {} r₁) = 1 := by
    show failures r₁.calls = 1
    rw [hcalls]
    rfl
  have hiff := (run_tests_reports_own_failures_iff (.new 30 1) hrun).mpr
    (.inl ⟨hown, by rw [hone]; decide⟩)
  exact ⟨r₁, hrun, hown, hiff.mpr hown⟩

/-- The second for a job of the call before it. -/
theorem run_tests_reports_earlier_failure :
    ¬ ∀ (r r' : Runner Unit) (plan : List Unit), r.Used → RunTests r plan r' →
      (r'.returnValue ≠ 0 ↔ OwnFailure r r') := by
  intro hall
  obtain ⟨r₁, r₂, hfirst, hsecond, -, htold, -, hreturn⟩ := two_calls
  have hne : r₂.returnValue ≠ 0 := by
    rw [hreturn]
    exact one_ne_zero
  obtain ⟨j, -, hend⟩ := (hall r₁ r₂ [()] (.runTests (.new 30 1) hfirst) hsecond).mp hne
  rw [htold] at hend
  simp at hend

end NovaProva
