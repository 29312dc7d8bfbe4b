import NovaProva.Runner.Processes

/-!
# Runner — Counts

`nrunning_` is the number of children not yet finished, kept by counting: it goes up in
`fork_child`, and down in `wait()` by `nfinished`, which counts the children seen finished through
their pipes and the children `reap_children` says it reaped.  `reap_children` does not count a
child that exited with status zero.  That is right when the child was already seen finished, and
wrong when it is reaped first, after `poll()` was interrupted: then the child leaves `children_`
and stays in `nrunning_`.

* `noSilentExit`: the step does not reap, after an interrupted `poll()`, a child of `children_`
  that exited with status zero.
* `Counted`: the invariant of the runs all of whose steps are so.
-/

namespace NovaProva

variable {J : Type}

/-- The jobs `run_tests` makes of a plan, from the next free id on. -/
def jobsFrom : Nat → List J → List (Job J)
  | _,  []      => []
  | id, x :: xs => ⟨id, x⟩ :: jobsFrom (id + 1) xs

/-! ### The invariant -/

/-- The step does not reap, after an interrupted `poll()`, a child that exited with status zero. -/
def noSilentExit (s : Sys J) : Label → Bool
  | .waited pid =>
      match s.pc with
      | .reapAny _ _ =>
          !(s.runner.children.any fun c => c.pid = pid) ||
            (s.findProc pid).bind (·.status) ≠ some (.exited 0)
      | _ => true
  | _ => true

/-- How `nrunning_` relates to `children_`, at each place in the parent's code. -/
def CountedAt (r : Runner J) (todo : List J) : Pc → Prop
  | .loop => r.nrunning = r.children.length ∧ NoneFinished r.children
  | .poll _ => 0 < r.nrunning ∧ r.nrunning = r.children.length ∧ NoneFinished r.children
  | .input _ i _ nfinished =>
      0 < r.nrunning ∧ r.nrunning = r.children.length ∧
      nfinished = (r.children.filter (·.isFinished)).length ∧ NoneFinished (r.children.drop i)
  | .reapAny _ num =>
      0 < r.nrunning ∧ r.nrunning = r.children.length + num ∧ NoneFinished r.children
  | .reapFinished => r.nrunning = r.polled.length
  | .reapPid _ => r.nrunning = r.polled.length
  | .reapRest => False
  | .done => r.children = [] ∧ todo = []
  | .exited => True
  | .aborted => False

/-- The invariant of a run of `run_tests` on the runner `r₀` with the plan `plan`. -/
structure Counted (r₀ : Runner J) (plan : List J) (s : Sys J) : Prop where
  max : s.runner.maxchildren = r₀.maxchildren
  le : s.runner.nrunning ≤ r₀.maxchildren
  /-- every job of the plan is ended, running, or still to come -/
  jobs : (endedJobs s.runner.calls ++ s.runner.children.map (·.job) ++
      jobsFrom s.runner.nextId s.todo).Perm
    (endedJobs r₀.calls ++ jobsFrom r₀.nextId plan)
  counts : CountedAt s.runner s.todo s.pc

theorem counted_start {r : Runner J} (hc : r.children = []) (plan : List J) :
    Counted r plan (Sys.start r plan) where
  max := rfl
  le := Nat.zero_le _
  jobs := by simp [Sys.start, hc, endedJobs]
  counts := by simp [Sys.start, hc, CountedAt, NoneFinished]

variable {r₀ : Runner J} {plan : List J} {s s' : Sys J}

/-- A step of another process. -/
theorem Counted.env (h : Counted r₀ plan s) {l : Label}
    (hs : s.step l = some s') (hl : l.IsEnv) : Counted r₀ plan s' := by
  obtain ⟨hr, htodo, hpc⟩ := env_frame hs hl
  refine ⟨?_, ?_, ?_, ?_⟩
  · rw [hr]
    exact h.max
  · rw [hr]
    exact h.le
  · rw [hr, htodo]
    exact h.jobs
  · rw [hr, htodo, hpc]
    exact h.counts

/-- Only the program counter changes. -/
theorem Counted.goto (h : Counted r₀ plan s) {b : Bool} {pc : Pc}
    (hc : CountedAt s.runner s.todo pc) :
    Counted r₀ plan { s with caughtSigchld := b, pc := pc } :=
  ⟨h.max, h.le, h.jobs, hc⟩

/-! ### Steps of the parent -/

/-- `begin_job` starts the next job of the plan in a new child. -/
theorem Counted.fork (h : Counted r₀ plan s) (hm : r₀.maxchildren < 2 ^ 31) {pid : Pid} {now : Int}
    (hs : s.step (.fork pid now) = some s') : Counted r₀ plan s' := by
  obtain ⟨item, todo, hpc, htodo, hlt, -, rfl⟩ := fork_eq_some hs
  have hc := h.counts
  rw [hpc] at hc
  obtain ⟨hcount, hnf⟩ := hc
  have hmax := h.max
  have hmod : (s.runner.nrunning + 1) % 2 ^ 32 = s.runner.nrunning + 1 :=
    Nat.mod_eq_of_lt (by omega)
  refine ⟨h.max, ?_, ?_, ?_⟩
  · simp only [Sys.beginJob, hmod]
    omega
  · have hj := h.jobs
    rw [htodo] at hj
    simpa [Sys.beginJob, jobsFrom, endedJobs] using hj
  · rw [show (s.beginJob item todo pid now).pc = .loop from hpc]
    refine ⟨?_, fun c hc => ?_⟩
    · show (s.runner.nrunning + 1) % 2 ^ 32 = (s.runner.children ++ [_]).length
      rw [hmod, hcount, List.length_append]
      rfl
    · rcases List.mem_append.mp hc with hc | hc
      · exact hnf c hc
      · cases List.mem_singleton.mp hc
        rfl

theorem Counted.forkFails (h : Counted r₀ plan s) (hs : s.step .forkFails = some s') :
    Counted r₀ plan s' := by
  obtain ⟨item, todo, -, -, -, rfl⟩ := forkFails_eq_some hs
  refine ⟨h.max, h.le, ?_, trivial⟩
  simpa [endedJobs] using h.jobs

/-- The end of a round: `nfinished` is the number of finished children, or counts the children
that were reaped. -/
theorem Counted.endRound (h : Counted r₀ plan s) {nz nf : Nat}
    (hle : nf ≤ s.runner.nrunning) (h0 : 0 < s.runner.nrunning)
    (hpolled : s.runner.nrunning - nf = s.runner.polled.length)
    (hnone : nf = 0 → NoneFinished s.runner.children) : Counted r₀ plan (s.endRound nz nf) := by
  have hmax := h.le
  rw [Sys.endRound]
  split
  · have hsub : sub32 s.runner.nrunning nf = s.runner.nrunning - nf :=
      sub32_of_le hle
    refine ⟨h.max, ?_, h.jobs, ?_⟩
    · show sub32 s.runner.nrunning nf ≤ _
      omega
    · show sub32 s.runner.nrunning nf = s.runner.polled.length
      rw [hsub, hpolled]
  case isFalse hnf =>
    have hnf : nf = 0 := by omega
    refine h.goto ⟨h0, ?_, hnone hnf⟩
    rw [← polled_of_noneFinished (hnone hnf), ← hpolled, hnf, Nat.sub_zero]

/-- `poll()` returns. -/
theorem Counted.poll (h : Counted r₀ plan s) {nz : Nat} {start : Int} {o : PollOutcome}
    (hpc : s.pc = .poll nz) (hs : s.pollStep nz start o = some s') : Counted r₀ plan s' := by
  have hc := h.counts
  rw [hpc] at hc
  obtain ⟨h0, hcount, hnf⟩ := hc
  have hpolled := polled_of_noneFinished hnf
  rcases pollStep_cases hs with ⟨hassert, -⟩ | ⟨-, -, rfl | ⟨nz', -, -, rfl⟩ | ⟨nz', now, -, rfl⟩ |
      ⟨nz', -, rfl⟩⟩
  · -- neither assertion fires
    rw [hpolled] at hassert
    omega
  · exact h.goto ⟨hcount, hnf⟩
  · exact h.goto ⟨h0, hcount, hnf⟩
  · obtain ⟨k₁, k₂, k₃, k₄, k₅⟩ := handleTimeouts_spec now s.runner s.runner.children
    generalize handleTimeouts now s.runner s.runner.children = p at k₁ k₂ k₃ k₄ k₅
    have hlen := congrArg List.length k₁
    rw [List.length_map, List.length_map] at hlen
    refine ⟨k₃.trans h.max, k₂.le.trans h.le, ?_, k₂.symm ▸ h0, ?_, ?_⟩
    · show (endedJobs p.1.calls ++ p.2.map Child.job ++ jobsFrom p.1.nextId s.todo).Perm _
      rw [map_job_eq, k₁, ← map_job_eq, k₄, k₅]
      exact h.jobs
    · show p.1.nrunning = p.2.length
      rw [k₂, hlen, hcount]
    · show NoneFinished p.2
      rw [noneFinished_iff_key, k₁, ← noneFinished_iff_key]
      exact hnf
  · refine h.goto ⟨h0, hcount, ?_, hnf⟩
    have hadd := length_polled_add s.runner
    rw [hpolled] at hadd
    omega

/-- One turn of the loop over `children_` counts the child if it is finished now. -/
theorem Counted.input (h : Counted r₀ plan s) {nz i nf : Nat} {pfd : List Revents}
    (hpc : s.pc = .input nz i pfd nf) (hs : s.inputStep nz i pfd nf = some s') :
    Counted r₀ plan s' := by
  have hc := h.counts
  rw [hpc] at hc
  obtain ⟨h0, hcount, hnf, hnone⟩ := hc
  have hsum := length_polled_add s.runner
  rcases inputStep_cases hs with ⟨hi, rfl⟩ | ⟨c, hi, hf, rfl⟩ |
      ⟨c, v, pfd', s₁, c₁, hi, hf, rfl, h₁, rfl⟩
  · have hi : s.runner.children.length ≤ i := List.getElem?_eq_none_iff.mp hi
    refine h.endRound (by omega) h0 (by omega) fun hz d hd => ?_
    rw [Bool.eq_false_iff]
    intro hdf
    have : d ∈ s.runner.children.filter (·.isFinished) := List.mem_filter.mpr ⟨hd, hdf⟩
    rw [List.length_eq_zero_iff.mp (hnf.symm.trans hz)] at this
    cases this
  · -- no child at or after position `i` is finished
    obtain ⟨hlt, he⟩ := List.getElem?_eq_some_iff.mp hi
    have hm : c ∈ s.runner.children.drop i := by
      rw [List.drop_eq_getElem_cons hlt, he]
      exact List.mem_cons_self
    rw [hnone c hm] at hf
    cases hf
  · obtain ⟨-, kjob, kch, k₁, k₂, k₃, k₄, k₅, -⟩ := input_frame h₁ hi
    obtain ⟨hlt, he⟩ := List.getElem?_eq_some_iff.mp hi
    generalize hc₂ : (if v.pollhup then c₁.handleHangup else c₁) = c₂
    have hjob : c₂.job = c.job := by rw [← hc₂, ← kjob]; split <;> rfl
    have hset : s₁.runner.children.set i c₂ = s.runner.children.set i c₂ := by
      rw [kch, List.set_set]
    have hsplit : s.runner.children =
        s.runner.children.take i ++ c :: s.runner.children.drop (i + 1) := by
      rw [← he, List.cons_getElem_drop_succ, List.take_append_drop]
    have hset' : s.runner.children.set i c₂ =
        s.runner.children.take i ++ c₂ :: s.runner.children.drop (i + 1) := by
      rw [List.set_eq_take_append_cons_drop, if_pos hlt]
    refine ⟨k₂.trans h.max, k₁.le.trans h.le, ?_, ?_⟩
    · show (endedJobs s₁.runner.calls ++ (s₁.runner.children.set i c₂).map Child.job ++
        jobsFrom s₁.runner.nextId s₁.todo).Perm _
      rw [hset, hset', List.map_append, List.map_cons, hjob, ← List.map_cons (f := Child.job),
        ← List.map_append, ← hsplit, k₃, k₄, k₅]
      exact h.jobs
    · show 0 < s₁.runner.nrunning ∧ s₁.runner.nrunning = (s₁.runner.children.set i c₂).length ∧
        (nf + if c₂.isFinished then 1 else 0) =
          ((s₁.runner.children.set i c₂).filter (·.isFinished)).length ∧
        NoneFinished ((s₁.runner.children.set i c₂).drop (i + 1))
      have hdrop : (s.runner.children.set i c₂).drop (i + 1) = s.runner.children.drop (i + 1) := by
        rw [List.drop_set_of_lt (by omega)]
      rw [hset, hdrop, k₁]
      refine ⟨h0, by rw [List.length_set]; exact hcount, ?_, fun d hd => ?_⟩
      · rw [hset', hnf]
        nth_rewrite 1 [hsplit]
        rw [List.filter_append, List.filter_append, List.filter_cons, List.filter_cons, hf]
        cases c₂.isFinished
        · simp
        · simp only [Bool.false_eq_true, if_false, if_true, List.length_append, List.length_cons]
          omega
      · refine hnone d ?_
        rw [List.drop_eq_getElem_cons hlt]
        exact List.mem_cons_of_mem _ hd

/-- A process is waited for: its child leaves `children_`, and its job is ended. -/
theorem Counted.reap (h : Counted r₀ plan s) {p : Proc} {st : Status} {pc : Pc}
    (hc : CountedAt (s.runner.reap p.pid st) s.todo pc) :
    Counted r₀ plan { s.reap p st with pc := pc } := by
  rcases s.runner.reap_cases p.pid st with ⟨hr, hno⟩ | ⟨c, as, bs, hpid, hch, hr, hch'⟩
  · refine ⟨?_, ?_, ?_, hc⟩
    all_goals simp only [Sys.reap, hr]
    · exact h.max
    · exact h.le
    · exact h.jobs
  · have hmax : (s.runner.reap p.pid st).maxchildren = s.runner.maxchildren := by
      rw [hr, Runner.reapChild_maxchildren]
    have hrun : (s.runner.reap p.pid st).nrunning = s.runner.nrunning := by
      rw [hr, Runner.reapChild_nrunning]
    have hid : (s.runner.reap p.pid st).nextId = s.runner.nextId := by
      rw [hr, Runner.reapChild_nextId]
    refine ⟨hmax.trans h.max, hrun.le.trans h.le, ?_, hc⟩
    show (endedJobs (s.runner.reap p.pid st).calls ++
      (s.runner.reap p.pid st).children.map Child.job ++
      jobsFrom (s.runner.reap p.pid st).nextId s.todo).Perm _
    rw [hid]
    refine List.Perm.trans (List.Perm.append_right _ ?_) h.jobs
    rw [hch', hch, hr, Runner.endedJobs_reapChild, List.append_assoc]
    refine List.Perm.append_left _ ?_
    rw [List.map_append, List.map_append, List.map_cons, List.singleton_append]
    exact List.perm_middle.symm

/-- `reap_children` waited for a process. -/
theorem Counted.waited (h : Counted r₀ plan s) (hw : Wf s) {pid : Pid}
    (hP : noSilentExit s (.waited pid) = true) (hs : s.waitedStep pid = some s') :
    Counted r₀ plan s' := by
  obtain ⟨p, st, hp, hst, hs⟩ := waitedStep_cases hs
  have hpid := findProc_pid hp
  have hc := h.counts
  rcases hs with ⟨nz, num, hpc, rfl⟩ | ⟨hpc | hpc, rfl⟩
  · rw [hpc] at hc
    obtain ⟨h0, hcount, hnf⟩ := hc
    refine h.reap ?_
    rcases s.runner.reap_cases p.pid st with ⟨hr, hno⟩ | ⟨c, as, bs, hcp, hch, hr, hch'⟩
    · have hcn : s.runner.counts pid st = false := by
        simp only [Runner.counts, Bool.and_eq_false_iff, List.any_eq_false, decide_eq_true_eq]
        exact Or.inl fun c hc => hpid ▸ hno c hc
      rw [hr, hcn]
      exact ⟨h0, hcount, hnf⟩
    · -- a child that was not seen finished is counted, since it did not exit with status zero
      have hany : (s.runner.children.any fun d => d.pid = pid) = true :=
        List.any_eq_true.mpr ⟨c, by rw [hch]; simp, by simpa using hcp.trans hpid⟩
      have hst' : st ≠ .exited 0 := by
        simp only [noSilentExit, hpc, hany, hp, Option.bind_some, hst] at hP
        simpa using hP
      have hcn : s.runner.counts pid st = true := by simp [Runner.counts, hany, hst']
      have hrun : (s.runner.reap p.pid st).nrunning = s.runner.nrunning := by
        rw [hr, Runner.reapChild_nrunning]
      rw [hcn]
      refine ⟨hrun ▸ h0, ?_, fun d hd => hnf d ?_⟩
      · rw [hrun, hch', hcount, hch]
        simp only [List.length_append, List.length_cons, if_true]
        omega
      · rw [hch'] at hd
        rw [hch]
        exact List.mem_append.mpr ((List.mem_append.mp hd).imp_right (List.mem_cons_of_mem _))
  · have hfin := hw.reaping pid hpc
    rw [hpc] at hc ⊢
    have hc : s.runner.nrunning = s.runner.polled.length := hc
    refine h.reap ?_
    show (s.runner.reap p.pid st).nrunning = (s.runner.reap p.pid st).polled.length
    rcases s.runner.reap_cases p.pid st with ⟨hr, hno⟩ | ⟨c, as, bs, hcp, hch, hr, hch'⟩
    · rw [hr]
      exact hc
    · have hcf : c.isFinished = true := hfin c (by rw [hch]; simp) (hcp.trans hpid)
      have hpolled : (s.runner.reap p.pid st).polled = s.runner.polled := by
        rw [Runner.polled, Runner.polled, hch', hch]
        simp [hcf]
      rw [hpolled, hr, Runner.reapChild_nrunning, hc]
  · rw [hpc] at hc
    exact hc.elim

/-- The end of `reap_children(-1, WNOHANG)`. -/
theorem Counted.reapedAny (h : Counted r₀ plan s) {nz num : Nat} (hpc : s.pc = .reapAny nz num) :
    Counted r₀ plan (s.endRound nz num) := by
  have hc := h.counts
  rw [hpc] at hc
  obtain ⟨h0, hcount, hnf⟩ := hc
  refine h.endRound (by omega) h0 ?_ fun _ => hnf
  rw [polled_of_noneFinished hnf, hcount]
  omega

/-- The end of `reap_children(pid, 0)`. -/
theorem Counted.reapedPid (h : Counted r₀ plan s) {pid : Pid} (hpc : s.pc = .reapPid pid) :
    Counted r₀ plan { s with pc := .reapFinished } := by
  have hc := h.counts
  rw [hpc] at hc
  exact h.goto hc

/-- The parent goes from one loop to the next. -/
theorem Counted.tau (h : Counted r₀ plan s) (h1 : 1 ≤ r₀.maxchildren)
    (hs : s.step .tau = some s') : Counted r₀ plan s' := by
  have hc := h.counts
  rcases tau_cases hs with ⟨hpc, hg, hs⟩ | ⟨nz, i, pfd, nf, hpc, hs⟩ | ⟨hpc, hs⟩
  · rw [hpc] at hc
    obtain ⟨hcount, hnf⟩ := hc
    rcases hs with ⟨h0, hne, -⟩ | ⟨h0, hch, rfl⟩ | ⟨h0, rfl⟩
    · exact absurd (List.length_eq_zero_iff.mp (hcount ▸ h0)) hne
    · have htodo : s.todo = [] := by
        by_contra ht
        exact hg ⟨by rw [h0, h.max]; omega, ht⟩
      refine ⟨h.max, h.le, ?_, hch, htodo⟩
      simpa [Sys.finish, endedJobs] using h.jobs
    · exact h.goto ⟨Nat.pos_of_ne_zero h0, hcount, hnf⟩
  · exact h.input hpc hs
  · rw [hpc] at hc
    have hc : s.runner.nrunning = s.runner.polled.length := hc
    rcases hs with ⟨hfind, rfl⟩ | ⟨c, hfind, rfl⟩
    · have hnf : NoneFinished s.runner.children := fun c hc => by
        simpa using List.find?_eq_none.mp hfind c hc
      exact h.goto ⟨by rw [hc, polled_of_noneFinished hnf], hnf⟩
    · exact h.goto hc

/-- A call of `reap_children` ends; there is none for the rest, as nothing is left to reap. -/
theorem Counted.waitOver (h : Counted r₀ plan s)
    (hs : s.step .waitNone = some s' ∨ s.step .waitError = some s') : Counted r₀ plan s' := by
  rcases waitOver_cases hs with ⟨nz, num, hpc, rfl⟩ | ⟨pid, hpc, rfl⟩ | ⟨hpc, -⟩
  · exact h.reapedAny hpc
  · exact h.reapedPid hpc
  · have hc := h.counts
    rw [hpc] at hc
    exact hc.elim

theorem Counted.step (h : Counted r₀ plan s) (hw : Wf s) (hm : r₀.maxchildren < 2 ^ 31)
    (h1 : 1 ≤ r₀.maxchildren) {l : Label} (hP : noSilentExit s l = true)
    (hs : s.step l = some s') : Counted r₀ plan s' := by
  cases l with
  | write pid bs => exact h.env hs trivial
  | close pid => exact h.env hs trivial
  | exit pid st => exact h.env hs trivial
  | sigchld => exact h.env hs trivial
  | stray pid => exact h.env hs trivial
  | fork pid now => exact h.fork hm hs
  | forkFails => exact h.forkFails hs
  | poll start o =>
      obtain ⟨nz, hpc, hs⟩ := poll_eq_some hs
      exact h.poll hpc hs
  | waited pid => exact h.waited hw hP hs
  | waitNone => exact h.waitOver (.inl hs)
  | waitStopped => exact waitStopped_eq hs ▸ h
  | waitError => exact h.waitOver (.inr hs)
  | tau => exact h.tau h1 hs

/-! ### Whole runs -/

/-- What `nrunning_` is for, in a state of a run of `run_tests` on `r₀` with the plan `plan`. -/
structure CountsChildren (r₀ : Runner J) (plan : List J) (s : Sys J) : Prop where
  /-- where the poll set is built, it has as many entries as `nrunning_` says -/
  polled : ∀ nz, s.pc = .poll nz → s.runner.nrunning = s.runner.polled.length
  /-- no assertion fires -/
  asserts : s.pc ≠ .aborted
  /-- what will be taken off `nrunning_` is never more than it -/
  input : ∀ nz i pfd nf, s.pc = .input nz i pfd nf → nf ≤ s.runner.nrunning
  reapAny : ∀ nz num, s.pc = .reapAny nz num → num ≤ s.runner.nrunning
  le : s.runner.nrunning ≤ r₀.maxchildren
  /-- when `run_tests` returns every job of the plan was ended once -/
  done : s.pc = .done → s.runner.children = [] ∧
    (endedJobs s.runner.calls).Perm (endedJobs r₀.calls ++ jobsFrom r₀.nextId plan)

theorem Counted.countsChildren (h : Counted r₀ plan s) : CountsChildren r₀ plan s := by
  have hc := h.counts
  refine ⟨fun nz hpc => ?_, fun hpc => ?_, fun nz i pfd nf hpc => ?_, fun nz num hpc => ?_,
    h.le, fun hpc => ?_⟩
  all_goals rw [hpc] at hc
  · obtain ⟨-, hcount, hnf⟩ := hc
    rw [polled_of_noneFinished hnf, hcount]
  · exact hc
  · obtain ⟨-, hcount, hnf, -⟩ := hc
    rw [hcount, hnf]
    exact List.length_filter_le _ _
  · obtain ⟨-, hcount, -⟩ := hc
    omega
  · obtain ⟨hch, htodo⟩ := hc
    refine ⟨hch, ?_⟩
    simpa [hch, htodo, jobsFrom] using h.jobs

/-- **`nrunning_` counts the unfinished children** in every run in which no child that exited with
status zero is reaped after an interrupted `poll()`, whatever the children, their pipes and their
signals do otherwise.  `set_concurrency` takes an `int`. -/
theorem wait_counts_children {r : Runner J} {plan : List J} {s : Sys J}
    (h1 : 1 ≤ r.maxchildren) (hm : r.maxchildren < 2 ^ 31) (hc : r.children = [])
    (h : Run Sys.step (fun s l => noSilentExit s l = true) (Sys.start r plan) s) :
    CountsChildren r plan s := by
  have hw := h.strengthen (wf_start hc plan) fun _ _ _ hu _ hs => hu.step hs
  refine Counted.countsChildren (hw.invariant (counted_start hc plan) ?_)
  intro u l v hu hP hs
  exact hu.step hP.2 hm h1 hP.1 hs

/-- One job whose child closes its pipe and exits. -/
theorem wait_counts_children_one_job :
    ∃ s : Sys Unit, s.pc = .done ∧ CountsChildren ({} : Runner Unit) [()] s := by
  let ls : List Label := [.fork 100 0, .tau, .close 100, .exit 100 (.exited 0), .poll 0 .ready,
    .tau, .tau, .tau, .waited 100, .waitNone, .tau, .tau]
  have hrun : (execute Sys.step noSilentExit (Sys.start ({} : Runner Unit) [()]) ls).any
      (fun s => s.pc = .done) = true := by decide +kernel
  obtain ⟨s, hs, hd⟩ := Run.of_execute hrun
  exact ⟨s, of_decide_eq_true hd, wait_counts_children (by decide) (by decide) rfl hs⟩

/-- A child exits with status zero while a process it forked still holds its pipe: it is reaped
after the interrupted `poll()` and stays in `nrunning_`, and the next round's assertion fires. -/
theorem wait_miscounts_silent_exit :
    ∃ s, Run Sys.step (fun _ _ => True) (Sys.start ({} : Runner Unit) [()]) s ∧
      ¬ CountsChildren ({} : Runner Unit) [()] s := by
  let ls : List Label := [.fork 100 0, .tau, .exit 100 (.exited 0), .poll 0 .eintr, .waited 100,
    .waitNone, .poll 1 .ready]
  have hrun : (execute Sys.step (fun _ _ => true) (Sys.start ({} : Runner Unit) [()]) ls).any
      (fun s => s.pc = .aborted) = true := by decide +kernel
  obtain ⟨s, hs, ha⟩ := Run.of_execute hrun
  exact ⟨s, hs.mono fun _ _ _ => trivial, fun h => h.asserts (of_decide_eq_true ha)⟩

end NovaProva
