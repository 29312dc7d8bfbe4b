import NovaProva.Runner.Machine

/-!
# Runner — Processes

What each operation of the parent changes, and the invariant that ties its children to the
processes it forked.  The invariant holds in every run, whatever the processes do: a child has a
pid and a job of its own, and its process until it is reaped; the entries of `pfd_` still to be
looked at are those of the unfinished children still to be looked at; and the child that
`reap_children(pid, 0)` waits for is finished.
-/

namespace NovaProva

variable {J : Type}

/-- The jobs that were ended, in order. -/
def endedJobs (calls : List (Callback J)) : List (Job J) :=
  calls.filterMap fun | .endJob j _ => some j | _ => none

/-- The jobs that are ended by some calls and by others. -/
@[simp] theorem endedJobs_append (cs ds : List (Callback J)) :
    endedJobs (cs ++ ds) = endedJobs cs ++ endedJobs ds := List.filterMap_append ..

/-! ### What the operations on a runner change -/

namespace Runner

variable (r : Runner J) (c : Child J) (j : Job J) (ev : Event) (cb : Callback J) (st : Status)

@[simp] theorem dispatch_children : (r.dispatch cb).children = r.children := rfl
@[simp] theorem dispatch_nrunning : (r.dispatch cb).nrunning = r.nrunning := rfl
@[simp] theorem dispatch_maxchildren : (r.dispatch cb).maxchildren = r.maxchildren := rfl
@[simp] theorem dispatch_nextId : (r.dispatch cb).nextId = r.nextId := rfl
@[simp] theorem dispatch_calls : (r.dispatch cb).calls = r.calls ++ [cb] := rfl

@[simp] theorem raiseEvent_children : (r.raiseEvent j ev).children = r.children := rfl
@[simp] theorem raiseEvent_nrunning : (r.raiseEvent j ev).nrunning = r.nrunning := rfl
@[simp] theorem raiseEvent_maxchildren : (r.raiseEvent j ev).maxchildren = r.maxchildren := rfl
@[simp] theorem raiseEvent_nextId : (r.raiseEvent j ev).nextId = r.nextId := rfl
@[simp] theorem raiseEvent_calls :
    (r.raiseEvent j ev).calls = r.calls ++ [.addEvent j ev.normalise] := rfl

/-- Of a reaped child only its entry in `children_` is gone. -/
@[simp] theorem reapChild_children :
    (r.reapChild c st).children = r.children.eraseP fun d => d.pid = c.pid := by
  simp only [reapChild]
  cases exitEvent c.pid st <;> rfl

@[simp] theorem reapChild_nrunning : (r.reapChild c st).nrunning = r.nrunning := by
  simp only [reapChild]
  cases exitEvent c.pid st <;> rfl

@[simp] theorem reapChild_maxchildren : (r.reapChild c st).maxchildren = r.maxchildren := by
  simp only [reapChild]
  cases exitEvent c.pid st <;> rfl

@[simp] theorem reapChild_nextId : (r.reapChild c st).nextId = r.nextId := by
  simp only [reapChild]
  cases exitEvent c.pid st <;> rfl

/-- A reaped child's job is ended. -/
theorem endedJobs_reapChild :
    endedJobs (r.reapChild c st).calls = endedJobs r.calls ++ [c.job] := by
  simp only [reapChild]
  cases exitEvent c.pid st <;> simp [endedJobs]

/-- The child found by its pid, in place. -/
theorem find_pid_eq_some {r : Runner J} {pid : Pid} {c : Child J}
    (h : r.children.find? (fun d => d.pid = pid) = some c) :
    c.pid = pid ∧ ∃ as bs, r.children = as ++ c :: bs ∧
      r.children.eraseP (fun d => d.pid = pid) = as ++ bs := by
  obtain ⟨hc, as, bs, he, has⟩ := List.find?_eq_some_iff_append.mp h
  have hc' : c.pid = pid := by simpa using hc
  refine ⟨hc', as, bs, he, ?_⟩
  rw [he, List.eraseP_append_right _ (fun d hd => by simpa using has d hd),
    List.eraseP_cons_of_pos (by simpa using hc')]

/-- What `reap` does: nothing for a stray process, and one turn of `reap_children` for a child. -/
theorem reap_cases (r : Runner J) (pid : Pid) (st : Status) :
    (r.reap pid st = r ∧ (∀ c ∈ r.children, c.pid ≠ pid)) ∨
    ∃ c as bs, c.pid = pid ∧ r.children = as ++ c :: bs ∧ r.reap pid st = r.reapChild c st ∧
      (r.reap pid st).children = as ++ bs := by
  cases hf : r.children.find? (fun c => c.pid = pid) with
  | none =>
      refine Or.inl ⟨by rw [reap, hf], fun c hc => ?_⟩
      simpa using List.find?_eq_none.mp hf c hc
  | some c =>
      obtain ⟨hp, as, bs, he, her⟩ := find_pid_eq_some hf
      have hr : r.reap pid st = r.reapChild c st := by rw [reap, hf]
      refine Or.inr ⟨c, as, bs, hp, he, hr, ?_⟩
      rw [hr, reapChild_children, hp, her]

end Runner

/-! ### Finished children -/

/-- No child is marked `FINISHED`. -/
def NoneFinished (cs : List (Child J)) : Prop := ∀ c ∈ cs, c.isFinished = false

/-- Where no child has finished all are polled. -/
theorem polled_of_noneFinished {r : Runner J} (h : NoneFinished r.children) :
    r.polled = r.children := by
  refine List.filter_eq_self.mpr fun c hc => ?_
  rw [h c hc]
  rfl

/-- Finished and unfinished children are all the children. -/
theorem length_polled_add (r : Runner J) :
    r.polled.length + (r.children.filter (·.isFinished)).length = r.children.length := by
  rw [Runner.polled]
  have h := List.length_eq_length_filter_add (l := r.children) (·.isFinished)
  omega

/-- A difference that does not wrap around. -/
theorem sub32_of_le {a b : Nat} (h : b ≤ a) : sub32 a b = a - b := if_pos h

/-! ### The process table -/

variable {s s' : Sys J}

/-- The process that is found has the id. -/
theorem findProc_pid {pid : Pid} {p : Proc} (h : s.findProc pid = some p) : p.pid = pid := by
  simpa using List.find?_some h

/-- A process that is not replaced is found as before. -/
theorem findProc_setProc_of_ne {p : Proc} {pid : Pid} (h : pid ≠ p.pid) :
    (s.setProc p).findProc pid = s.findProc pid := by
  simp only [Sys.findProc, Sys.setProc]
  induction s.procs with
  | nil => rfl
  | cons q qs ih =>
      rw [List.map_cons, List.find?_cons, List.find?_cons, ih]
      by_cases e : q.pid = p.pid
      · rw [if_pos e, decide_eq_false h.symm, decide_eq_false (e ▸ h.symm)]
      · rw [if_neg e]

/-- A process that is replaced is found. -/
theorem findProc_setProc_self {p q : Proc} {pid : Pid} (h : s.findProc pid = some q)
    (he : p.pid = q.pid) : (s.setProc p).findProc pid = some p := by
  rw [findProc_pid h] at he
  subst he
  simp only [Sys.findProc, Sys.setProc] at h ⊢
  generalize s.procs = ps at h ⊢
  induction ps with
  | nil => cases h
  | cons q qs ih =>
      rw [List.map_cons, List.find?_cons]
      rw [List.find?_cons] at h
      by_cases e : q.pid = p.pid
      · simp [e]
      · rw [decide_eq_false e] at h
        simp only [if_neg e, decide_eq_false e]
        exact ih h

/-- Changing a process but not its job. -/
theorem findProc_setProc_job {p q : Proc} {pid : Pid} (h : s.findProc pid = some q)
    (he : p.pid = q.pid) (hj : p.job = q.job) (pid' : Pid) (q' : Proc)
    (hq : s.findProc pid' = some q') :
    ∃ p', (s.setProc p).findProc pid' = some p' ∧ p'.job = q'.job := by
  by_cases e : pid' = p.pid
  · rw [e, he, findProc_pid h, h] at hq
    cases hq
    rw [e, he, findProc_pid h]
    exact ⟨p, findProc_setProc_self h he, hj⟩
  · exact ⟨q', by rw [findProc_setProc_of_ne e, hq], rfl⟩

/-- A process that was not waited for is still there. -/
theorem findProc_reap {p : Proc} {st : Status} {pid : Pid} (h : pid ≠ p.pid) :
    (s.reap p st).findProc pid = s.findProc pid := by
  simp only [Sys.findProc, Sys.reap]
  induction s.procs with
  | nil => rfl
  | cons q qs ih =>
      rw [List.eraseP_cons, List.find?_cons]
      by_cases e : q.pid = p.pid
      · rw [decide_eq_true e, cond_true, decide_eq_false (e ▸ h.symm)]
      · rw [decide_eq_false e, cond_false, List.find?_cons, ih]

/-- A new process hides none. -/
theorem findProc_append {p : Proc} {pid : Pid} {q : Proc} (h : s.findProc pid = some q) :
    (Sys.findProc { s with procs := s.procs ++ [p] } pid) = some q := by
  simp only [Sys.findProc, List.find?_append] at h ⊢
  rw [h, Option.some_or]

/-! ### Timeouts -/

/-- What survives of a child through `handle_timeout`. -/
def Child.key (c : Child J) : Pid × Job J × Bool := (c.pid, c.job, c.isFinished)

/-- `handle_timeout` changes no more than the signals, the events and what a child was told. -/
theorem handleTimeout_spec (now : Int) (r : Runner J) (c : Child J) :
    (handleTimeout now r c).2.key = c.key ∧
    (handleTimeout now r c).1.nrunning = r.nrunning ∧
    (handleTimeout now r c).1.maxchildren = r.maxchildren ∧
    (handleTimeout now r c).1.nextId = r.nextId ∧
    endedJobs (handleTimeout now r c).1.calls = endedJobs r.calls := by
  obtain ⟨pid, j, res, st, d⟩ := c
  cases st with
  | running =>
      simp only [handleTimeout]
      split
      · simp [Child.key, Child.isFinished, Child.mergeResult, endedJobs]
      · exact ⟨rfl, rfl, rfl, rfl, rfl⟩
  | timeout1 => exact ⟨rfl, rfl, rfl, rfl, rfl⟩
  | timeout2 => exact ⟨rfl, rfl, rfl, rfl, rfl⟩
  | finished => exact ⟨rfl, rfl, rfl, rfl, rfl⟩

/-- `handle_timeout` finishes no child and ends no job. -/
theorem handleTimeouts_spec (now : Int) (r : Runner J) (cs : List (Child J)) :
    (handleTimeouts now r cs).2.map Child.key = cs.map Child.key ∧
    (handleTimeouts now r cs).1.nrunning = r.nrunning ∧
    (handleTimeouts now r cs).1.maxchildren = r.maxchildren ∧
    (handleTimeouts now r cs).1.nextId = r.nextId ∧
    endedJobs (handleTimeouts now r cs).1.calls = endedJobs r.calls := by
  induction cs generalizing r with
  | nil => exact ⟨rfl, rfl, rfl, rfl, rfl⟩
  | cons c cs ih =>
      rw [handleTimeouts]
      by_cases hf : c.isFinished
      · obtain ⟨h₁, h₂, h₃, h₄, h₅⟩ := ih r
        simp only [hf, if_true, List.map_cons, h₁, h₂, h₃, h₄, h₅, and_self]
      · obtain ⟨k₁, k₂, k₃, k₄, k₅⟩ := handleTimeout_spec now r c
        obtain ⟨h₁, h₂, h₃, h₄, h₅⟩ := ih (handleTimeout now r c).1
        simp only [if_neg hf, List.map_cons, h₁, h₂, h₃, h₄, h₅, k₁, k₂, k₃, k₄, k₅, and_self]

/-- Whether a child has finished is in its key. -/
theorem noneFinished_iff_key {cs : List (Child J)} :
    NoneFinished cs ↔ ∀ k ∈ cs.map Child.key, k.2.2 = false := by
  simp [NoneFinished, Child.key]

/-- The job of a child is in its key. -/
theorem map_job_eq (cs : List (Child J)) : cs.map (·.job) = (cs.map Child.key).map (·.2.1) := by
  simp [Child.key]

/-! ### Input -/

/-- What `handle_input` does: it reads one call off the child's pipe. -/
theorem input_eq_some {i : Nat} {c c₁ : Child J} {s₁ : Sys J} (h : s.input i c = some (s₁, c₁)) :
    ∃ p k, s.findProc c.pid = some p ∧ handleCall c.result (!p.isOpen) p.unread = some k ∧
      c₁ = c.handleInput k ∧
      s₁ = { s.setProc { p with nread := p.sent.length - k.rest.length } with
        runner := {
          k.event.elim s.runner fun ev => s.runner.dispatch (.addEvent c.job ev) with
          children := s.runner.children.set i (c.handleInput k) } } := by
  obtain ⟨p, hp, h⟩ := Option.bind_eq_some_iff.mp h
  obtain ⟨k, hk, h⟩ := Option.bind_eq_some_iff.mp h
  cases h
  refine ⟨p, k, hp, hk, rfl, ?_⟩
  cases k.event <;> rfl

/-- One turn of the loop over `children_`: past the end, at a finished child, or at a child whose
entry of `pfd_` is next. -/
theorem inputStep_cases {nz i nf : Nat} {pfd : List Revents}
    (h : s.inputStep nz i pfd nf = some s') :
    (s.runner.children[i]? = none ∧ s' = s.endRound nz nf) ∨
    (∃ c, s.runner.children[i]? = some c ∧ c.isFinished = true ∧
      s' = { s with pc := .input nz (i + 1) pfd nf }) ∨
    ∃ c v pfd' s₁ c₁, s.runner.children[i]? = some c ∧ c.isFinished = false ∧ pfd = v :: pfd' ∧
      (if v.pollin then s.input i c else some (s, c)) = some (s₁, c₁) ∧
      s' = { s₁ with
        runner := { s₁.runner with
          children := s₁.runner.children.set i (if v.pollhup then c₁.handleHangup else c₁) }
        pc := .input nz (i + 1) pfd'
          (nf + if (if v.pollhup then c₁.handleHangup else c₁).isFinished then 1 else 0) } := by
  rw [Sys.inputStep] at h
  split at h
  next hi =>
    cases h
    exact Or.inl ⟨hi, rfl⟩
  next c hi =>
    split at h
    case isTrue hf =>
      cases h
      exact Or.inr (Or.inl ⟨c, hi, hf, rfl⟩)
    case isFalse hf =>
      split at h
      · cases h
      next v pfd' =>
        obtain ⟨⟨s₁, c₁⟩, h₁, rfl⟩ := Option.map_eq_some_iff.mp h
        exact Or.inr (Or.inr ⟨c, v, pfd', s₁, c₁, hi, by simpa using hf, rfl, h₁, rfl⟩)

/-- The parts of the state that reading a child's pipe leaves alone. -/
theorem input_frame {i : Nat} {c c₁ : Child J} {s₁ : Sys J} {b : Bool}
    (h : (if b then s.input i c else some (s, c)) = some (s₁, c₁))
    (hi : s.runner.children[i]? = some c) :
    c₁.pid = c.pid ∧ c₁.job = c.job ∧ s₁.runner.children = s.runner.children.set i c₁ ∧
      s₁.runner.nrunning = s.runner.nrunning ∧ s₁.runner.maxchildren = s.runner.maxchildren ∧
      s₁.runner.nextId = s.runner.nextId ∧ s₁.todo = s.todo ∧
      endedJobs s₁.runner.calls = endedJobs s.runner.calls ∧
      ∀ pid q, s.findProc pid = some q → ∃ q', s₁.findProc pid = some q' ∧ q'.job = q.job := by
  split at h
  · obtain ⟨p, k, hp, -, rfl, rfl⟩ := input_eq_some h
    refine ⟨rfl, rfl, rfl, ?_, ?_, ?_, rfl, ?_, fun pid q hq => ?_⟩
    · cases k.event <;> rfl
    · cases k.event <;> rfl
    · cases k.event <;> rfl
    · cases k.event <;> simp [endedJobs]
    · exact findProc_setProc_job (p := { p with nread := p.sent.length - k.rest.length }) hp
        rfl rfl pid q hq
  · cases h
    refine ⟨rfl, rfl, ?_, rfl, rfl, rfl, rfl, rfl, fun _ q h => ⟨q, h, rfl⟩⟩
    obtain ⟨hlt, he⟩ := List.getElem?_eq_some_iff.mp hi
    rw [← he, List.set_getElem_self]

/-! ### The invariant -/

/-- The children and their processes. -/
structure Wf (s : Sys J) : Prop where
  pids : (s.runner.children.map (·.pid)).Nodup
  ids : (s.runner.children.map (·.job.id)).Nodup
  lt : ∀ c ∈ s.runner.children, c.job.id < s.runner.nextId
  procs : ∀ c ∈ s.runner.children, ∃ p, s.findProc c.pid = some p ∧ p.job = some c.job.id
  aligned : ∀ nz i pfd nf, s.pc = .input nz i pfd nf →
    pfd.map (·.fd) = ((s.runner.children.drop i).filter fun c => !c.isFinished).map (·.pid)
  reaping : ∀ pid, s.pc = .reapPid pid → ∀ c ∈ s.runner.children, c.pid = pid → c.isFinished = true

/-- The invariant holds at first. -/
theorem wf_start {r : Runner J} (hc : r.children = []) (plan : List J) :
    Wf (Sys.start r plan) := by
  have hch : (Sys.start r plan).runner.children = [] := hc
  refine ⟨?_, ?_, ?_, ?_, fun _ _ _ _ h => ?_, fun _ h => ?_⟩
  · simp [hch]
  · simp [hch]
  · simp [hch]
  · simp [hch]
  · cases h
  · cases h

/-- A child is known by its pid. -/
theorem Wf.eq_of_pid (h : Wf s) {c d : Child J} (hc : c ∈ s.runner.children)
    (hd : d ∈ s.runner.children) (he : c.pid = d.pid) : c = d :=
  List.inj_on_of_nodup_map h.pids hc hd he

/-- A child is known by its job. -/
theorem Wf.eq_of_id (h : Wf s) {c d : Child J} (hc : c ∈ s.runner.children)
    (hd : d ∈ s.runner.children) (he : c.job.id = d.job.id) : c = d :=
  List.inj_on_of_nodup_map h.ids hc hd he

/-- The other children than one of them. -/
theorem Wf.of_split (hw : Wf s) {c : Child J} {as bs : List (Child J)}
    (hsplit : s.runner.children = as ++ c :: bs) {d : Child J} (hd : d ∈ as ++ bs) :
    d ∈ s.runner.children ∧ d.job.id ≠ c.job.id := by
  constructor
  · rw [hsplit]
    exact (List.Sublist.append_left (List.sublist_cons_self c bs) as).subset hd
  · intro he
    have hids := hw.ids
    rw [hsplit, List.map_append, List.map_cons, List.nodup_middle, List.nodup_cons,
      ← List.map_append, ← he] at hids
    exact hids.1 (List.mem_map_of_mem hd)

/-- What `children_` holds of a child besides its progress. -/
def Child.ident (c : Child J) : Pid × Job J := (c.pid, c.job)

/-- A step that starts and reaps no child. -/
theorem Wf.of_ident (h : Wf s)
    (hids : s'.runner.children.map Child.ident = s.runner.children.map Child.ident)
    (hnext : s'.runner.nextId = s.runner.nextId)
    (hp : ∀ pid q, s.findProc pid = some q → ∃ q', s'.findProc pid = some q' ∧ q'.job = q.job)
    (ha : ∀ nz i pfd nf, s'.pc = .input nz i pfd nf →
      pfd.map (·.fd) = ((s'.runner.children.drop i).filter fun c => !c.isFinished).map (·.pid))
    (hr : ∀ pid, s'.pc = .reapPid pid →
      ∀ c ∈ s'.runner.children, c.pid = pid → c.isFinished = true) : Wf s' := by
  have hpids := congrArg (List.map Prod.fst) hids
  have hjobs := congrArg (List.map fun k : Pid × Job J => k.2.id) hids
  simp only [List.map_map] at hpids hjobs
  have hmem : ∀ c ∈ s'.runner.children, ∃ d ∈ s.runner.children, d.pid = c.pid ∧ d.job = c.job := by
    intro c hc
    have hk : c.ident ∈ s.runner.children.map Child.ident := by
      rw [← hids]
      exact List.mem_map_of_mem hc
    obtain ⟨d, hd, he⟩ := List.mem_map.mp hk
    exact ⟨d, hd, congrArg Prod.fst he, congrArg Prod.snd he⟩
  refine ⟨?_, ?_, fun c hc => ?_, fun c hc => ?_, ha, hr⟩
  · have := h.pids
    rwa [show s.runner.children.map (·.pid) = s'.runner.children.map (·.pid) from hpids.symm]
      at this
  · have := h.ids
    rwa [show s.runner.children.map (·.job.id) = s'.runner.children.map (·.job.id) from
      hjobs.symm] at this
  · obtain ⟨d, hd, -, hj⟩ := hmem c hc
    rw [← hj, hnext]
    exact h.lt d hd
  · obtain ⟨d, hd, hpid, hj⟩ := hmem c hc
    obtain ⟨p, hp', hpj⟩ := h.procs d hd
    rw [hpid] at hp'
    obtain ⟨q, hq, hqj⟩ := hp _ _ hp'
    exact ⟨q, hq, by rw [hqj, hpj, hj]⟩

/-- The parent goes on without touching its children. -/
theorem Wf.goto (h : Wf s) (hch : s'.runner.children = s.runner.children)
    (hnext : s'.runner.nextId = s.runner.nextId) (hp : s'.procs = s.procs)
    (hpc : match s'.pc with | .input .. | .reapPid .. => False | _ => True) : Wf s' := by
  refine h.of_ident (by rw [hch]) hnext (fun pid q hq => ⟨q, ?_, rfl⟩) ?_ ?_
  · rw [Sys.findProc, hp]
    exact hq
  · intro nz i pfd nf he
    rw [he] at hpc
    exact hpc.elim
  · intro pid he
    rw [he] at hpc
    exact hpc.elim

/-- Steps of the other processes. -/
theorem Wf.env (h : Wf s) {l : Label} (hs : s.step l = some s') (hl : l.IsEnv) : Wf s' := by
  cases l with
  | write pid bs =>
      obtain ⟨p, hp, hs⟩ := Option.bind_eq_some_iff.mp hs
      split at hs
      · cases hs
        exact h.of_ident rfl rfl (findProc_setProc_job (p := { p with sent := p.sent ++ bs }) hp
          rfl rfl) h.aligned h.reaping
      · cases hs
  | close pid =>
      obtain ⟨p, hp, hs⟩ := Option.bind_eq_some_iff.mp hs
      cases hs
      exact h.of_ident rfl rfl (findProc_setProc_job (p := { p with isOpen := false }) hp rfl rfl)
        h.aligned h.reaping
  | exit pid st =>
      obtain ⟨p, hp, hs⟩ := Option.bind_eq_some_iff.mp hs
      split at hs
      · cases hs
        exact h.of_ident rfl rfl (findProc_setProc_job (p := { p with status := some st }) hp
          rfl rfl) h.aligned h.reaping
      · cases hs
  | sigchld =>
      cases hs
      exact h.of_ident rfl rfl (fun _ q hq => ⟨q, hq, rfl⟩) h.aligned h.reaping
  | stray pid =>
      simp only [Sys.step] at hs
      split at hs
      · cases hs
        exact h.of_ident rfl rfl (fun _ q hq => ⟨q, findProc_append hq, rfl⟩) h.aligned h.reaping
      · cases hs
  | _ => exact hl.elim

/-- The invariant is kept when a child is started. -/
theorem Wf.fork (h : Wf s) {pid : Pid} {now : Int} (hs : s.step (.fork pid now) = some s') :
    Wf s' := by
  obtain ⟨item, todo, hpc, -, -, hnone, rfl⟩ := fork_eq_some hs
  have hpids : ∀ c ∈ s.runner.children, c.pid ≠ pid := by
    rintro c hc rfl
    obtain ⟨p, hp, -⟩ := h.procs c hc
    rw [hnone] at hp
    cases hp
  refine ⟨?_, ?_, fun c hc => ?_, fun c hc => ?_, ?_, ?_⟩
  · simp only [Sys.beginJob, List.map_append, List.map_cons, List.map_nil]
    refine List.nodup_append.mpr ⟨h.pids, List.nodup_singleton _, ?_⟩
    rintro p hp q hq rfl
    obtain ⟨c, hc, rfl⟩ := List.mem_map.mp hp
    exact hpids c hc (List.mem_singleton.mp hq)
  · simp only [Sys.beginJob, List.map_append, List.map_cons, List.map_nil]
    refine List.nodup_append.mpr ⟨h.ids, List.nodup_singleton _, ?_⟩
    rintro id hid q hq rfl
    obtain ⟨c, hc, rfl⟩ := List.mem_map.mp hid
    have := h.lt c hc
    rw [List.mem_singleton.mp hq] at this
    exact Nat.lt_irrefl _ this
  · show c.job.id < s.runner.nextId + 1
    rcases List.mem_append.mp hc with hc | hc
    · exact Nat.lt_succ_of_lt (h.lt c hc)
    · cases List.mem_singleton.mp hc
      exact Nat.lt_succ_self _
  · rcases List.mem_append.mp hc with hc | hc
    · obtain ⟨p, hp, hj⟩ := h.procs c hc
      exact ⟨p, findProc_append hp, hj⟩
    · cases List.mem_singleton.mp hc
      refine ⟨{ pid := pid, job := some s.runner.nextId }, ?_, rfl⟩
      show (s.procs ++ [_]).find? _ = _
      rw [List.find?_append, show s.procs.find? (fun p => p.pid = pid) = none from hnone]
      simp
  · intro nz i pfd nf hin
    rw [show (s.beginJob item todo pid now).pc = .loop from hpc] at hin
    cases hin
  · intro q hin
    rw [show (s.beginJob item todo pid now).pc = .loop from hpc] at hin
    cases hin

/-- The invariant is kept at the end of a round. -/
theorem Wf.endRound (h : Wf s) (nz nf : Nat) : Wf (s.endRound nz nf) := by
  rw [Sys.endRound]
  split
  · exact h.goto rfl rfl rfl trivial
  · exact h.goto rfl rfl rfl trivial

/-- The invariant is kept by `poll()`. -/
theorem Wf.poll (h : Wf s) {nz : Nat} {start : Int} {o : PollOutcome}
    (hs : s.pollStep nz start o = some s') : Wf s' := by
  rcases pollStep_cases hs with ⟨-, rfl⟩ | ⟨-, -, rfl | ⟨nz', -, -, rfl⟩ | ⟨nz', now, -, rfl⟩ |
      ⟨nz', -, rfl⟩⟩
  · exact h.goto rfl rfl rfl trivial
  · exact h.goto rfl rfl rfl trivial
  · exact h.goto rfl rfl rfl trivial
  · obtain ⟨k₁, k₂, k₃, k₄, k₅⟩ := handleTimeouts_spec now s.runner s.runner.children
    refine h.of_ident ?_ k₄ (fun _ q hq => ⟨q, hq, rfl⟩) ?_ ?_
    · have hident := congrArg (List.map fun k : Pid × Job J × Bool => (k.1, k.2.1)) k₁
      rw [List.map_map, List.map_map] at hident
      exact hident
    · rintro nz i pfd nf ⟨⟩
    · rintro pid ⟨⟩
  · refine h.of_ident rfl rfl (fun _ q hq => ⟨q, hq, rfl⟩) ?_ ?_
    · rintro nz i pfd nf ⟨⟩
      rw [List.map_map, List.drop_zero, Runner.polled]
      refine List.map_congr_left fun c _ => ?_
      simp only [Function.comp, Sys.revents]
      split <;> rfl
    · rintro pid ⟨⟩

/-- The invariant is kept when a child is read. -/
theorem Wf.input (h : Wf s) {nz i nf : Nat} {pfd : List Revents}
    (hpc : s.pc = .input nz i pfd nf) (hs : s.inputStep nz i pfd nf = some s') : Wf s' := by
  have ha := h.aligned _ _ _ _ hpc
  rcases inputStep_cases hs with ⟨hi, rfl⟩ | ⟨c, hi, hf, rfl⟩ |
      ⟨c, v, pfd', s₁, c₁, hi, hf, rfl, h₁, rfl⟩
  · exact h.endRound nz nf
  · obtain ⟨hlt, he⟩ := List.getElem?_eq_some_iff.mp hi
    refine h.of_ident rfl rfl (fun _ q hq => ⟨q, hq, rfl⟩) ?_ ?_
    · rintro nz i pfd nf ⟨⟩
      rw [ha, List.drop_eq_getElem_cons hlt, he, List.filter_cons_of_neg (by simp [hf])]
    · rintro pid ⟨⟩
  · obtain ⟨kpid, kjob, kch, -, -, knext, -, -, kproc⟩ := input_frame h₁ hi
    obtain ⟨hlt, he⟩ := List.getElem?_eq_some_iff.mp hi
    generalize hc₂ : (if v.pollhup then c₁.handleHangup else c₁) = c₂
    have hident : c₂.ident = c.ident := by
      rw [← hc₂, Child.ident, Child.ident, ← kpid, ← kjob]
      split <;> rfl
    refine h.of_ident ?_ knext kproc ?_ ?_
    · show (s₁.runner.children.set i c₂).map Child.ident = _
      rw [kch, List.set_set, List.map_set, hident, ← List.map_set, ← he, List.set_getElem_self]
    · rintro nz i pfd nf ⟨⟩
      show _ = (((s₁.runner.children.set i c₂).drop (i + 1)).filter _).map _
      rw [kch, List.set_set, List.drop_set_of_lt (Nat.lt_succ_self i)]
      rw [List.drop_eq_getElem_cons hlt, he, List.filter_cons_of_pos (by simp [hf])] at ha
      exact (List.cons.inj ha).2
    · rintro pid ⟨⟩

/-- The invariant is kept when a process is reaped. -/
theorem Wf.reap (h : Wf s) {p : Proc} {st : Status} {pc : Pc}
    (hpc : ∀ nz i pfd nf, pc ≠ .input nz i pfd nf)
    (hr : ∀ pid, pc = .reapPid pid → ∀ c ∈ s.runner.children, c.pid = pid → c.isFinished = true) :
    Wf { s.reap p st with pc := pc } := by
  have herase : ∀ d : Child J, d.pid ≠ p.pid → ∀ q, s.findProc d.pid = some q →
      Sys.findProc { s.reap p st with pc := pc } d.pid = some q := by
    intro d hd q hq
    have he : (s.reap p st).findProc d.pid = s.findProc d.pid := findProc_reap hd
    rw [hq] at he
    exact he
  have ha : ∀ nz i pfd nf, pc = .input nz i pfd nf → pfd.map (·.fd) =
      (((s.reap p st).runner.children.drop i).filter fun c => !c.isFinished).map (·.pid) :=
    fun nz i pfd nf he => absurd he (hpc nz i pfd nf)
  rcases s.runner.reap_cases p.pid st with ⟨hr', hno⟩ | ⟨c, as, bs, hpid, hch, hr', hch'⟩
  · have hch : (s.reap p st).runner.children = s.runner.children := by
      show (s.runner.reap p.pid st).children = _
      rw [hr']
    have hnext : (s.reap p st).runner.nextId = s.runner.nextId := by
      show (s.runner.reap p.pid st).nextId = _
      rw [hr']
    refine ⟨?_, ?_, fun d hd => ?_, fun d hd => ?_, ha, fun pid he d hd => ?_⟩
    · rw [hch]
      exact h.pids
    · rw [hch]
      exact h.ids
    · rw [hnext]
      exact h.lt d (hch ▸ hd)
    · obtain ⟨q, hq, hj⟩ := h.procs d (hch ▸ hd)
      exact ⟨q, herase d (hno d (hch ▸ hd)) q hq, hj⟩
    · exact hr pid he d (hch ▸ hd)
  · have hnext : (s.reap p st).runner.nextId = s.runner.nextId := by
      show (s.runner.reap p.pid st).nextId = _
      rw [hr', Runner.reapChild_nextId]
    have hch' : (s.reap p st).runner.children = as ++ bs := hch'
    have hsub : (as ++ bs).Sublist s.runner.children := by
      rw [hch]
      exact List.Sublist.append_left (List.sublist_cons_self c bs) as
    refine ⟨?_, ?_, fun d hd => ?_, fun d hd => ?_, ha, fun pid he d hd => ?_⟩
    · rw [hch']
      exact h.pids.sublist (hsub.map _)
    · rw [hch']
      exact h.ids.sublist (hsub.map _)
    · rw [hnext]
      exact h.lt d (hsub.subset (hch' ▸ hd))
    · have hd : d ∈ as ++ bs := hch' ▸ hd
      have hne : d.pid ≠ p.pid := by
        have hnodup := h.pids
        rw [hch, List.map_append, List.map_cons, List.nodup_middle, List.nodup_cons] at hnodup
        rintro he
        refine hnodup.1 ?_
        rw [hpid, ← he, ← List.map_append]
        exact List.mem_map_of_mem hd
      obtain ⟨q, hq, hj⟩ := h.procs d (hsub.subset hd)
      exact ⟨q, herase d hne q hq, hj⟩
    · exact hr pid he d (hsub.subset (hch' ▸ hd))

/-- The invariant is kept when there is none to reap. -/
theorem Wf.waitOver (h : Wf s)
    (hs : s.step .waitNone = some s' ∨ s.step .waitError = some s') : Wf s' := by
  rcases waitOver_cases hs with ⟨nz, num, -, rfl⟩ | ⟨pid, -, rfl⟩ | ⟨-, rfl⟩
  · exact h.endRound nz num
  · exact h.goto rfl rfl rfl trivial
  · exact h.goto rfl rfl rfl trivial

/-- **Every step keeps the invariant.** -/
theorem Wf.step (h : Wf s) {l : Label} (hs : s.step l = some s') : Wf s' := by
  cases l with
  | write pid bs => exact h.env hs trivial
  | close pid => exact h.env hs trivial
  | exit pid st => exact h.env hs trivial
  | sigchld => exact h.env hs trivial
  | stray pid => exact h.env hs trivial
  | fork pid now => exact h.fork hs
  | forkFails =>
      obtain ⟨item, todo, -, -, -, rfl⟩ := forkFails_eq_some hs
      exact h.goto rfl rfl rfl trivial
  | poll start o =>
      obtain ⟨nz, -, hs⟩ := poll_eq_some hs
      exact h.poll hs
  | waited pid =>
      obtain ⟨p, st, -, -, hs⟩ := waitedStep_cases hs
      rcases hs with ⟨nz, num, hpc, rfl⟩ | ⟨hpc, rfl⟩
      · refine h.reap ?_ ?_
        · rintro nz i pfd nf ⟨⟩
        · rintro pid ⟨⟩
      · refine h.reap (fun nz i pfd nf he => ?_) h.reaping
        rcases hpc with hpc | hpc
        · cases hpc.symm.trans he
        · cases hpc.symm.trans he
  | waitNone => exact h.waitOver (.inl hs)
  | waitStopped => exact waitStopped_eq hs ▸ h
  | waitError => exact h.waitOver (.inr hs)
  | tau =>
      rcases tau_cases hs with ⟨-, -, ⟨-, -, rfl⟩ | ⟨-, -, rfl⟩ | ⟨-, rfl⟩⟩ |
          ⟨nz, i, pfd, nf, hpc, hs⟩ | ⟨-, ⟨-, rfl⟩ | ⟨c, hfind, rfl⟩⟩
      · exact h.goto rfl rfl rfl trivial
      · exact h.goto rfl rfl rfl trivial
      · exact h.goto rfl rfl rfl trivial
      · exact h.input hpc hs
      · exact h.goto rfl rfl rfl trivial
      · refine h.of_ident rfl rfl (fun _ q hq => ⟨q, hq, rfl⟩) ?_ ?_
        · rintro nz i pfd nf ⟨⟩
        · rintro pid ⟨⟩ d hd he
          rw [h.eq_of_pid hd (List.mem_of_find?_eq_some hfind) he]
          exact List.find?_some hfind

end NovaProva
