import NovaProva.Runner.ReturnValue
import NovaProva.Runner.Rounds

/-!
# Runner — Returned

`run_tests` returns only when its plan has been run.  A child that exits with status zero and is
reaped after an interrupted `poll()` stays in `nrunning_` for good, and from there on the assertion
on the poll set fires before `run_tests` can return; every other step keeps the count.  So what
holds of the runs that count right holds of all that return, with interrupts, stray processes and
hang-ups at any time.

* `Lost`: `nrunning_` is above the number of the children.
* `run_tests_runs_plan`: what the listeners have been told when a call of `run_tests` returns, and
  that none returns behind a lost child.
-/

namespace NovaProva

variable {J : Type} {r r' : Runner J} {plan : List J} {s s' : Sys J} {l : Label}

/-! ### A child too many -/

/-- How `nrunning_` is above the number of the children, at each place in the parent's code. -/
def LostAt (r : Runner J) : Pc → Prop
  | .loop | .poll _ | .reapFinished => r.children.length < r.nrunning ∧ NoneFinished r.children
  | .reapAny _ num => r.children.length + num < r.nrunning ∧ NoneFinished r.children
  | .aborted | .exited => True
  | _ => False

/-- A state behind the step that reaped a child and left it in `nrunning_`. -/
structure Lost (r : Runner J) (s : Sys J) : Prop where
  max : s.runner.maxchildren = r.maxchildren
  le : s.runner.nrunning ≤ r.maxchildren
  lost : LostAt s.runner s.pc

theorem Lost.env (h : Lost r s) (hs : s.step l = some s') (hl : l.IsEnv) : Lost r s' := by
  obtain ⟨hr, -, hpc⟩ := env_frame hs hl
  refine ⟨?_, ?_, ?_⟩
  · rw [hr]
    exact h.max
  · rw [hr]
    exact h.le
  · rw [hr, hpc]
    exact h.lost

theorem Lost.goto (h : Lost r s) {b : Bool} {pc : Pc} (hlost : LostAt s.runner pc) :
    Lost r { s with caughtSigchld := b, pc := pc } :=
  ⟨h.max, h.le, hlost⟩

/-- One more child is one more in `nrunning_`. -/
theorem Lost.fork (h : Lost r s) (hm : r.maxchildren < 2 ^ 31) {pid : Pid} {now : Int}
    (hs : s.step (.fork pid now) = some s') : Lost r s' := by
  obtain ⟨item, todo, hpc, -, hroom, -, rfl⟩ := fork_eq_some hs
  have hlost := h.lost
  rw [hpc] at hlost
  have hmax := h.max
  have hmod : (s.runner.nrunning + 1) % 2 ^ 32 = s.runner.nrunning + 1 :=
    Nat.mod_eq_of_lt (by omega)
  refine ⟨h.max, ?_, ?_⟩
  · show (s.runner.nrunning + 1) % 2 ^ 32 ≤ _
    omega
  · rw [show (s.beginJob item todo pid now).pc = .loop from hpc]
    constructor
    · show (s.runner.children ++ [_]).length < (s.runner.nrunning + 1) % 2 ^ 32
      rw [hmod, List.length_append]
      exact Nat.add_lt_add_right hlost.1 1
    · intro c hc
      rcases List.mem_append.mp hc with hc | hc
      · exact hlost.2 c hc
      · cases List.mem_singleton.mp hc
        rfl

/-- The assertion on the poll set fires. -/
theorem Lost.poll (h : Lost r s) {nz : Nat} {start : Int} {o : PollOutcome} (hpc : s.pc = .poll nz)
    (hs : s.pollStep nz start o = some s') : Lost r s' := by
  have hlost := h.lost
  rw [hpc] at hlost
  have hpolled := polled_of_noneFinished hlost.2
  rcases pollStep_cases hs with ⟨-, rfl⟩ | ⟨hlen, -⟩
  · exact ⟨h.max, h.le, trivial⟩
  · rw [hpolled] at hlen
    exact absurd hlen (Nat.ne_of_lt hlost.1)

/-- A child that is reaped may stay in `nrunning_` too. -/
theorem Lost.waited (h : Lost r s) {pid : Pid} (hs : s.waitedStep pid = some s') : Lost r s' := by
  obtain ⟨p, st, hp, -, ⟨nz, num, hpc, rfl⟩ | ⟨hpc | hpc, -⟩⟩ := waitedStep_cases hs
  · have hlost := h.lost
    rw [hpc] at hlost
    rw [← findProc_pid hp]
    rcases s.runner.reap_cases p.pid st with ⟨hr, hno⟩ | ⟨c, as, bs, -, hch, hr, hch'⟩
    · have hcounts : s.runner.counts p.pid st = false := by
        simp only [Runner.counts, Bool.and_eq_false_iff, List.any_eq_false, decide_eq_true_eq]
        exact .inl hno
      refine ⟨?_, ?_, ?_⟩
      all_goals simp only [Sys.reap, hr, hcounts]
      · exact h.max
      · exact h.le
      · exact hlost
    · have hrun : (s.runner.reap p.pid st).nrunning = s.runner.nrunning := by
        rw [hr, Runner.reapChild_nrunning]
      have hmax : (s.runner.reap p.pid st).maxchildren = s.runner.maxchildren := by
        rw [hr, Runner.reapChild_maxchildren]
      refine ⟨hmax.trans h.max, hrun.le.trans h.le, ?_, fun d hd => hlost.2 d ?_⟩
      · show (s.runner.reap p.pid st).children.length + (num + _) <
          (s.runner.reap p.pid st).nrunning
        have hlt := hlost.1
        rw [hch] at hlt
        rw [hrun, hch']
        simp only [List.length_append, List.length_cons] at hlt ⊢
        split <;> omega
      · have hd : d ∈ (s.runner.reap p.pid st).children := hd
        rw [hch'] at hd
        rw [hch]
        exact List.mem_append.mpr ((List.mem_append.mp hd).imp_right (List.mem_cons_of_mem _))
  all_goals
    have hlost := h.lost
    rw [hpc] at hlost
    exact hlost.elim

/-- What was counted is taken off, and there is still one too many. -/
theorem Lost.waitOver (h : Lost r s)
    (hs : s.step .waitNone = some s' ∨ s.step .waitError = some s') : Lost r s' := by
  have hlost := h.lost
  rcases waitOver_cases hs with ⟨nz, num, hpc, rfl⟩ | ⟨pid, hpc, -⟩ | ⟨hpc, -⟩
  · rw [hpc] at hlost
    obtain ⟨hlt, hnone⟩ := hlost
    have hle := h.le
    rw [Sys.endRound]
    split
    · have hsub : sub32 s.runner.nrunning num = s.runner.nrunning - num := sub32_of_le (by omega)
      refine ⟨h.max, ?_, ?_, hnone⟩
      · show sub32 s.runner.nrunning num ≤ _
        omega
      · show s.runner.children.length < sub32 s.runner.nrunning num
        omega
    · exact h.goto ⟨by omega, hnone⟩
  · rw [hpc] at hlost
    exact hlost.elim
  · rw [hpc] at hlost
    exact hlost.elim

theorem Lost.tau (h : Lost r s) (hs : s.step .tau = some s') : Lost r s' := by
  have hlost := h.lost
  rcases tau_cases hs with ⟨hpc, -, ⟨hzero, -⟩ | ⟨hzero, -⟩ | ⟨-, rfl⟩⟩ | ⟨nz, i, pfd, nf, hpc, -⟩ |
      ⟨hpc, ⟨-, rfl⟩ | ⟨c, hfind, -⟩⟩
  all_goals rw [hpc] at hlost
  · exact absurd hzero (Nat.ne_zero_of_lt hlost.1)
  · exact absurd hzero (Nat.ne_zero_of_lt hlost.1)
  · exact h.goto hlost
  · exact hlost.elim
  · exact h.goto hlost
  · -- no child is finished
    have hfin := List.find?_some hfind
    rw [hlost.2 c (List.mem_of_find?_eq_some hfind)] at hfin
    cases hfin

/-- **What is lost stays lost.** -/
theorem Lost.step (h : Lost r s) (hm : r.maxchildren < 2 ^ 31) (hs : s.step l = some s') :
    Lost r s' := by
  cases l with
  | fork pid now => exact h.fork hm hs
  | forkFails =>
      obtain ⟨item, todo, -, -, -, rfl⟩ := forkFails_eq_some hs
      exact ⟨h.max, h.le, trivial⟩
  | poll start o =>
      obtain ⟨nz, hpc, hs⟩ := poll_eq_some hs
      exact h.poll hpc hs
  | waited pid => exact h.waited hs
  | waitNone => exact h.waitOver (.inl hs)
  | waitStopped => exact waitStopped_eq hs ▸ h
  | waitError => exact h.waitOver (.inr hs)
  | tau => exact h.tau hs
  | _ => exact h.env hs trivial

theorem Lost.not_done (h : Lost r s) : s.pc ≠ .done := by
  intro hpc
  have hlost := h.lost
  rw [hpc] at hlost
  exact hlost

/-- A child that exited with status zero is reaped, and `nrunning_` is as before. -/
theorem Counted.loses (h : Counted r plan s) (hP : noSilentExit s l = false)
    (hs : s.step l = some s') : Lost r s' := by
  unfold noSilentExit at hP
  split at hP
  next pid =>
    split at hP
    next nz num hpc =>
      obtain ⟨hany, hexit⟩ := Bool.or_eq_false_iff.mp hP
      obtain ⟨p, st, hp, hst, ⟨nz', num', hpc', rfl⟩ | ⟨hpc' | hpc', -⟩⟩ := waitedStep_cases hs
      · have hzero : st = .exited 0 := by simpa [hp, hst] using hexit
        have hcounts := h.counts
        rw [hpc'] at hcounts
        obtain ⟨-, hcount, hnone⟩ := hcounts
        rw [← findProc_pid hp]
        rcases s.runner.reap_cases p.pid st with ⟨-, hno⟩ | ⟨c, as, bs, -, hch, hr, hch'⟩
        · have hany : s.runner.children.any (fun c => decide (c.pid = pid)) = true := by
            simpa using hany
          obtain ⟨c, hc, hpid⟩ := List.any_eq_true.mp hany
          have hpid : c.pid = pid := of_decide_eq_true hpid
          exact absurd (hpid.trans (findProc_pid hp).symm) (hno c hc)
        · have hrun : (s.runner.reap p.pid st).nrunning = s.runner.nrunning := by
            rw [hr, Runner.reapChild_nrunning]
          have hmax : (s.runner.reap p.pid st).maxchildren = s.runner.maxchildren := by
            rw [hr, Runner.reapChild_maxchildren]
          have hnot : s.runner.counts p.pid st = false := by simp [Runner.counts, hzero]
          refine ⟨hmax.trans h.max, hrun.le.trans h.le, ?_, fun d hd => hnone d ?_⟩
          · show (s.runner.reap p.pid st).children.length + (num' + _) <
              (s.runner.reap p.pid st).nrunning
            rw [hrun, hcount, hch', hch, hnot]
            simp only [List.length_append, List.length_cons, Bool.false_eq_true, if_false]
            omega
          · have hd : d ∈ (s.runner.reap p.pid st).children := hd
            rw [hch'] at hd
            rw [hch]
            exact List.mem_append.mpr ((List.mem_append.mp hd).imp_right (List.mem_cons_of_mem _))
      · cases hpc.symm.trans hpc'
      · cases hpc.symm.trans hpc'
    · cases hP
  · cases hP

/-! ### Runs that return -/

/-- A state that `run_tests` can still return from, with what it has told. -/
structure Whole (r : Runner J) (plan : List J) (s : Sys J) (cs : List (Callback J)) : Prop where
  wf : Wf s
  counted : Counted r plan s
  told : Told r plan s cs
  serial : r.maxchildren = 1 → Serial r plan s cs

section
variable (h1 : 1 ≤ r.maxchildren) (hm : r.maxchildren < 2 ^ 31)
include h1 hm

/-- A step keeps the count, or the call does not return. -/
theorem Whole.step {cs : List (Callback J)} (h : Whole r plan s cs) (hs : s.step l = some s') :
    Lost r s' ∨ ∃ new, Whole r plan s' (cs ++ new) := by
  cases hP : noSilentExit s l with
  | false => exact .inl (h.counted.loses hP hs)
  | true =>
      obtain ⟨new, htold, hserial⟩ := h.told.step h.wf h.counted hs
      exact .inr ⟨new, h.wf.step hs, h.counted.step h.wf hm h1 hP hs, htold,
        fun hone => hserial hone (h.serial hone)⟩

theorem lost_or_whole (hc : r.children = [])
    (h : Run Sys.step (fun _ _ => True) (Sys.start r plan) s) :
    Lost r s ∨ ∃ cs, Whole r plan s cs := by
  refine h.invariant (I := fun s => Lost r s ∨ ∃ cs, Whole r plan s cs) ?_ fun u l v hu _ hs => ?_
  · exact .inr ⟨[], wf_start hc plan, counted_start hc plan, told_start hc plan,
      fun _ => serial_start hc plan⟩
  · rcases hu with hlost | ⟨cs, hwhole⟩
    · exact .inl (hlost.step hm hs)
    · exact (hwhole.step h1 hm hs).imp_right fun ⟨new, hnew⟩ => ⟨cs ++ new, hnew⟩

/-- When `run_tests` returns no child was lost. -/
theorem whole_of_done (hc : r.children = [])
    (h : Run Sys.step (fun _ _ => True) (Sys.start r plan) s) (hpc : s.pc = .done) :
    ∃ cs, Whole r plan s cs :=
  (lost_or_whole h1 hm hc h).resolve_left fun hlost => hlost.not_done hpc

end

/-! ### What is told -/

/-- An event was normalised, and a job ends with a result. -/
def Callback.Proper : Callback J → Prop
  | .addEvent _ ev => ∃ ev' : Event, ev = ev'.normalise
  | .endJob _ res  => res ≠ .unknown
  | _              => True

/-- Only such calls were added. -/
def TellsProperly (s s' : Sys J) : Prop :=
  ∃ new, s'.runner.calls = s.runner.calls ++ new ∧ ∀ cb ∈ new, cb.Proper

theorem tellsProperly_of_eq (h : s'.runner.calls = s.runner.calls) : TellsProperly s s' :=
  ⟨[], by rw [h, List.append_nil], fun _ hcb => absurd hcb List.not_mem_nil⟩

theorem tellsProperly_one {cb : Callback J} (h : s'.runner.calls = s.runner.calls ++ [cb])
    (hcb : cb.Proper) : TellsProperly s s' :=
  ⟨[cb], h, List.forall_mem_singleton.mpr hcb⟩

/-- The result of a job that is reaped is merged with `R_PASS`. -/
theorem proper_reapCalls (c : Child J) (st : Status) : ∀ cb ∈ c.reapCalls st, cb.Proper := by
  intro cb hcb
  rcases List.mem_append.mp hcb with hcb | hcb
  · obtain ⟨ev, -, rfl⟩ := List.mem_map.mp hcb
    exact ⟨ev, rfl⟩
  · rw [List.mem_singleton.mp hcb]
    show c.reapResult st ≠ .unknown
    rw [Child.reapResult, Result.merge_comm]
    exact Result.merge_ne_unknown (by decide)

theorem tellsProperly_reap (s : Sys J) (pid : Pid) (st : Status)
    (h : s'.runner.calls = (s.runner.reap pid st).calls) : TellsProperly s s' := by
  rw [Runner.reap] at h
  split at h
  · exact tellsProperly_of_eq h
  · exact ⟨_, h.trans (Runner.reapChild_calls ..), proper_reapCalls _ st⟩

theorem proper_timeoutCall (now : Int) (cs : List (Child J)) :
    ∀ cb ∈ cs.filterMap (Child.timeoutCall now), cb.Proper := by
  intro cb hcb
  obtain ⟨c, -, hc⟩ := List.mem_filterMap.mp hcb
  unfold Child.timeoutCall at hc
  split at hc
  · split at hc
    · cases hc
      exact ⟨_, rfl⟩
    · cases hc
  · cases hc

theorem tellsProperly_poll {nz : Nat} {start : Int} {o : PollOutcome}
    (hs : s.pollStep nz start o = some s') : TellsProperly s s' := by
  rcases pollStep_cases hs with ⟨-, rfl⟩ | ⟨-, -, rfl | ⟨nz', -, -, rfl⟩ | ⟨nz', now, -, rfl⟩ |
      ⟨nz', -, rfl⟩⟩
  · exact tellsProperly_of_eq rfl
  · exact tellsProperly_of_eq rfl
  · exact tellsProperly_of_eq rfl
  · refine ⟨_, ?_, proper_timeoutCall now s.runner.children⟩
    show (handleTimeouts now s.runner s.runner.children).1.calls = _
    rw [handleTimeouts_eq]
  · exact tellsProperly_of_eq rfl

theorem tellsProperly_waitOver
    (hs : s.step .waitNone = some s' ∨ s.step .waitError = some s') : TellsProperly s s' := by
  rcases waitOver_cases hs with ⟨nz, num, -, rfl⟩ | ⟨pid, -, rfl⟩ | ⟨-, rfl⟩
  · rw [Sys.endRound]
    split <;> exact tellsProperly_of_eq rfl
  · exact tellsProperly_of_eq rfl
  · exact tellsProperly_one rfl trivial

/-- The event of a call that is read is normalised. -/
theorem handleCall_event {res : Result} {eof : Bool} {bs : List UInt8} {k : Handled} {ev : Event}
    (h : handleCall res eof bs = some k) (hev : k.event = some ev) :
    ∃ ev' : Event, ev = ev'.normalise := by
  rw [handleCall] at h
  split at h
  · cases h
    exact ⟨_, (Option.some.inj hev).symm⟩
  · cases h
    cases hev
  · cases h
    cases hev
  · split at h
    · cases h
      cases hev
    · cases h

theorem tellsProperly_input {nz i nf : Nat} {pfd : List Revents}
    (hs : s.inputStep nz i pfd nf = some s') : TellsProperly s s' := by
  rcases inputStep_cases hs with ⟨-, rfl⟩ | ⟨c, -, -, rfl⟩ | ⟨c, v, pfd', s₁, c₁, -, -, -, h₁, rfl⟩
  · rw [Sys.endRound]
    split <;> exact tellsProperly_of_eq rfl
  · exact tellsProperly_of_eq rfl
  · split at h₁
    · obtain ⟨p, k, -, hk, -, rfl⟩ := input_eq_some h₁
      cases hev : k.event with
      | none => exact tellsProperly_of_eq rfl
      | some ev => exact tellsProperly_one rfl (handleCall_event hk hev)
    · cases h₁
      exact tellsProperly_of_eq rfl

/-- **A step tells properly.** -/
theorem step_tellsProperly (hs : s.step l = some s') : TellsProperly s s' := by
  cases l with
  | fork pid now =>
      obtain ⟨item, todo, -, -, -, -, rfl⟩ := fork_eq_some hs
      exact tellsProperly_one rfl trivial
  | forkFails =>
      obtain ⟨item, todo, -, -, -, rfl⟩ := forkFails_eq_some hs
      exact tellsProperly_one rfl trivial
  | poll start o =>
      obtain ⟨nz, -, hs⟩ := poll_eq_some hs
      exact tellsProperly_poll hs
  | waited pid =>
      obtain ⟨p, st, -, -, ⟨nz, num, -, rfl⟩ | ⟨-, rfl⟩⟩ := waitedStep_cases hs
      · exact tellsProperly_reap s p.pid st rfl
      · exact tellsProperly_reap s p.pid st rfl
  | waitNone => exact tellsProperly_waitOver (.inl hs)
  | waitStopped => exact tellsProperly_of_eq (by rw [waitStopped_eq hs])
  | waitError => exact tellsProperly_waitOver (.inr hs)
  | tau =>
      rcases tau_cases hs with ⟨-, -, ⟨-, -, rfl⟩ | ⟨-, -, rfl⟩ | ⟨-, rfl⟩⟩ |
          ⟨nz, i, pfd, nf, -, hs⟩ | ⟨-, ⟨-, rfl⟩ | ⟨c, -, rfl⟩⟩
      · exact tellsProperly_of_eq rfl
      · exact tellsProperly_one rfl trivial
      · exact tellsProperly_of_eq rfl
      · exact tellsProperly_input hs
      · exact tellsProperly_of_eq rfl
      · exact tellsProperly_of_eq rfl
  | _ => exact tellsProperly_of_eq (by rw [(env_frame hs trivial).1])

/-- And so does a call. -/
theorem RunTests.tellsProperly (hrun : RunTests r plan r') :
    ∀ cb ∈ toldSince r r', cb.Proper := by
  obtain ⟨s, hs, -, rfl⟩ := hrun
  obtain ⟨new, hcalls, hnew⟩ : ∃ new, s.runner.calls = r.calls ++ new ∧
      ∀ cb ∈ new, cb.Proper := by
    refine hs.invariant (I := fun s => ∃ new, s.runner.calls = r.calls ++ new ∧
      ∀ cb ∈ new, cb.Proper) ?_ fun u l v ⟨new, hu, hnew⟩ _ hstep => ?_
    · exact ⟨[.begin], rfl, List.forall_mem_singleton.mpr trivial⟩
    · obtain ⟨more, hv, hmore⟩ := step_tellsProperly hstep
      exact ⟨new ++ more, by rw [hv, hu, List.append_assoc],
        List.forall_mem_append.mpr ⟨hnew, hmore⟩⟩
  rwa [toldSince, hcalls, List.drop_left]

/-! ### Calls that return -/

/-- What the listeners are told of a plan between `begin` and `end`. -/
structure RunsPlan (r : Runner J) (plan : List J) (cs : List (Callback J)) : Prop where
  /-- every job is begun once, in plan order -/
  begun : begunJobs cs = jobsFrom r.nextId plan
  /-- and ended once -/
  ended : (endedJobs cs).Perm (jobsFrom r.nextId plan)
  /-- with its events in between -/
  allowed : Each Callback.Allowed cs
  /-- and a result -/
  proper : ∀ cb ∈ cs, cb.Proper
  serial : r.maxchildren = 1 →
    ∃ bs, List.Forall₂ IsBlock (jobsFrom r.nextId plan) bs ∧ cs = bs.flatten

theorem Whole.toldSince {cs : List (Callback J)} (h : Whole r plan s cs) (hpc : s.pc = .done) :
    toldSince r s.runner = .begin :: (cs ++ [.finish]) := by
  rw [NovaProva.toldSince, h.told.calls, if_pos hpc, List.drop_left]

theorem Whole.runsPlan {cs : List (Callback J)} (h : Whole r plan s cs) (hpc : s.pc = .done)
    (hproper : ∀ cb ∈ cs, cb.Proper) : RunsPlan r plan cs := by
  -- nothing is asked of the rounds here
  have hnone : RoundNote.RoundsOrdered [] := by
    rintro i j k - ⟨pre, post, hnil, -⟩
    simp at hnil
  have hcalls := h.told.callsInOrder h.counted h.serial hnone hpc
  exact ⟨hcalls.begun, hcalls.ended, hcalls.allowed, hproper, hcalls.serial⟩

/-- What a call that returns leaves behind. -/
theorem RunTests.runsPlan (h1 : 1 ≤ r.maxchildren) (hm : r.maxchildren < 2 ^ 31)
    (hc : r.children = []) (hrun : RunTests r plan r') :
    r'.children = [] ∧ r'.maxchildren = r.maxchildren ∧
      ∃ cs, NovaProva.toldSince r r' = .begin :: (cs ++ [.finish]) ∧ RunsPlan r plan cs := by
  have hproper := hrun.tellsProperly
  obtain ⟨s, hs, hpc, rfl⟩ := hrun
  obtain ⟨cs, hwhole⟩ := whole_of_done h1 hm hc hs hpc
  have htold := hwhole.toldSince hpc
  have hcounts := hwhole.counted.counts
  rw [hpc] at hcounts
  refine ⟨hcounts.1, hwhole.counted.max, cs, htold, hwhole.runsPlan hpc fun cb hcb => ?_⟩
  rw [htold] at hproper
  exact hproper cb (by simp [hcb])

/-- A step that leaves a child it reaps in `nrunning_` is the last one from which the call could
have returned. -/
theorem not_done_of_loses (h1 : 1 ≤ r.maxchildren) (hm : r.maxchildren < 2 ^ 31)
    (hc : r.children = []) (hrun : Run Sys.step (fun _ _ => True) (Sys.start r plan) s)
    (hP : noSilentExit s l = false) (hs : s.step l = some s') {t : Sys J}
    (ht : Run Sys.step (fun _ _ => True) s' t) : t.pc ≠ .done := by
  have hlost : Lost r s' := by
    rcases lost_or_whole h1 hm hc hrun with hlost | ⟨cs, hwhole⟩
    · exact hlost.step hm hs
    · exact hwhole.counted.loses hP hs
  exact (ht.invariant hlost fun u _ v hu _ hstep => hu.step hm hstep).not_done

/-- **`run_tests` runs its plan**, in every run in which it returns, whatever the children, their
pipes, other processes and signals do: every job of the plan was begun once in its order, and ended
once with a result behind its events, one at a time if there is one child at a time.  The runner is
left without children, for the next call.  Behind a step that left a child it had reaped in
`nrunning_` the call never returns. -/
theorem run_tests_runs_plan (h1 : 1 ≤ r.maxchildren) (hm : r.maxchildren < 2 ^ 31)
    (hc : r.children = []) (plan : List J) :
    (∀ r', RunTests r plan r' → r'.children = [] ∧ r'.maxchildren = r.maxchildren ∧
      ∃ cs, toldSince r r' = .begin :: (cs ++ [.finish]) ∧ RunsPlan r plan cs) ∧
    ∀ s l s', Run Sys.step (fun _ _ => True) (Sys.start r plan) s → noSilentExit s l = false →
      s.step l = some s' → ∀ t, Run Sys.step (fun _ _ => True) s' t → t.pc ≠ .done :=
  ⟨fun _ hrun => hrun.runsPlan h1 hm hc,
    fun _ _ _ hrun hP hs _ ht => not_done_of_loses h1 hm hc hrun hP hs ht⟩

/-- Two jobs at a time; the first child dies and is reaped after an interrupted `poll()`. -/
def interruptedRun : List Label :=
  [.fork 100 0, .fork 101 0, .tau, .exit 100 (.signaled 11), .poll 0 .eintr, .waited 100,
    .waitNone, .tau, .fork 102 0, .tau, .close 101, .close 102, .exit 101 (.exited 0),
    .exit 102 (.exited 1), .poll 0 .ready, .tau, .tau, .tau, .tau, .waited 101, .waitNone, .tau,
    .waited 102, .waitNone, .tau, .tau]

/-- A child that exits with status zero, and an interrupted `poll()`. -/
def silentRun : List Label :=
  [.fork 100 0, .fork 101 0, .tau, .exit 100 (.exited 0), .poll 0 .eintr]

/-- The first run returns; the other one does not, once the child is reaped. -/
theorem run_tests_runs_plan_interrupted :
    (∃ (r' : Runner Unit) (cs : List (Callback Unit)),
      RunTests { maxchildren := 2 } [(), (), ()] r' ∧ r'.children = [] ∧
        toldSince { maxchildren := 2 } r' = .begin :: (cs ++ [.finish]) ∧
        RunsPlan { maxchildren := 2 } [(), (), ()] cs) ∧
    ∃ s s' : Sys Unit,
      Run Sys.step (fun _ _ => True) (Sys.start { maxchildren := 2 } [(), (), ()]) s ∧
        s.step (.waited 100) = some s' ∧
        ∀ t, Run Sys.step (fun _ _ => True) s' t → t.pc ≠ .done := by
  obtain ⟨hreturns, hlost⟩ :=
    run_tests_runs_plan (r := ({ maxchildren := 2 } : Runner Unit)) (by decide) (by decide) rfl
      [(), (), ()]
  constructor
  · have hdone : (execute Sys.step (fun _ _ => true)
        (Sys.start ({ maxchildren := 2 } : Runner Unit) [(), (), ()]) interruptedRun).any
          (fun s => s.pc = .done) = true := by decide +kernel
    obtain ⟨s, hs, hpc⟩ := Run.of_execute hdone
    have hrun : RunTests ({ maxchildren := 2 } : Runner Unit) [(), (), ()] s.runner :=
      ⟨s, hs.mono fun _ _ _ => trivial, of_decide_eq_true hpc, rfl⟩
    obtain ⟨hch, -, cs, htold, hcs⟩ := hreturns s.runner hrun
    exact ⟨s.runner, cs, hrun, hch, htold, hcs⟩
  · have hreaps : (execute Sys.step (fun _ _ => true)
        (Sys.start ({ maxchildren := 2 } : Runner Unit) [(), (), ()]) silentRun).any
          (fun s => (s.step (.waited 100)).isSome && !noSilentExit s (.waited 100)) = true := by
      decide +kernel
    obtain ⟨s, hs, hstep⟩ := Run.of_execute hreaps
    obtain ⟨hsome, hP⟩ := Bool.and_eq_true_iff.mp hstep
    obtain ⟨s', hs'⟩ := Option.isSome_iff_exists.mp hsome
    have hrun := hs.mono (Q := fun _ _ => True) fun _ _ _ => trivial
    exact ⟨s, s', hrun, hs', hlost s _ s' hrun (by simpa using hP) hs'⟩

end NovaProva
