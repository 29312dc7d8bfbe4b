import NovaProva.Runner.Processes

/-!
# Runner — Delivery

What becomes of the calls a child writes to its event pipe.  A child that behaves writes
`EVENT e₁ … EVENT eₖ, FINISHED r`, closes the pipe and exits with status zero, at any time and in
pieces of any size; the parent should have told its listeners of `e₁ … eₖ`, once each and in order,
when it ends the job, with the worst of the events' results, `r` and `R_PASS`.

`wait()` reads one call per round, and a hang-up finishes the child whatever is still in the pipe;
`reap_children(-1, ..)` does not look into the pipe at all.  So the calls arrive in the runs in
which

* `poll()` sees the hang-up only when the `FINISHED` call alone is unread,
* `reap_children(-1, ..)` does not return the child before it is finished, and
* the child's deadline does not pass in a `poll()`.
-/

namespace NovaProva

variable {J : Type}

/-! ### The calls of one child -/

namespace Message

/-- What a call contributes to the result of the test. -/
def result : Message → Result
  | .event e    => e.getResult
  | .finished r => r

/-- The event the listeners are told of. -/
def told : Message → Option Event
  | .event e    => some e.received.normalise
  | .finished _ => none

end Message

/-- What the listeners are told about the job `j`: its events and its end. -/
def reports (j : Nat) (calls : List (Callback J)) : List Message :=
  calls.filterMap fun
    | .addEvent jb ev => if jb.id = j then some (.event ev) else none
    | .endJob jb res  => if jb.id = j then some (.finished res) else none
    | _               => none

@[simp] theorem reports_append (j : Nat) (cs ds : List (Callback J)) :
    reports j (cs ++ ds) = reports j cs ++ reports j ds := List.filterMap_append ..

/-- What is reported of a job when all its calls arrive. -/
def fullReport (es : List Event) (r : Result) : List Message :=
  (es.map fun e => .event e.received.normalise) ++
    [.finished (Result.mergeAll (es.map Event.getResult ++ [r, .pass]))]

/-- When the job `j` was ended, its calls had arrived. -/
def Delivered (j : Nat) (es : List Event) (r : Result) (calls : List (Callback J)) : Prop :=
  ∀ res, .finished res ∈ reports j calls → reports j calls = fullReport es r

/-- The step, if it is one of the process that runs the job `j`, follows the script. -/
def followsScript (j : Nat) (es : List Event) (r : Result) (s : Sys J) : Label → Bool
  | .write pid bs => (s.findProc pid).all fun p =>
      p.job ≠ some j || (p.sent ++ bs).isPrefixOf (wire (script es r))
  | .close pid => (s.findProc pid).all fun p => p.job ≠ some j || p.sent = wire (script es r)
  | .exit pid st => (s.findProc pid).all fun p =>
      p.job ≠ some j || (st = .exited 0 && !p.isOpen)
  | _ => true

/-- The step is none of those that lose the calls of the job `j`. -/
def keepsCalls (j : Nat) (r : Result) (s : Sys J) : Label → Bool
  -- a hang-up is seen only when the last call alone is unread
  | .poll _ .ready => s.runner.polled.all fun c => c.job.id ≠ j ||
      (s.findProc c.pid).all fun p => p.isOpen || p.unread = serialiseMessage (.finished r)
  -- the child's time is not up
  | .poll _ (.timedOut now) => s.runner.polled.all fun c => c.job.id ≠ j || now < c.deadline
  -- `reap_children(-1, ..)` returns the child only when it is finished
  | .waited pid => match s.pc with
      | .reapPid _ => true
      | _ => s.runner.children.all fun c => c.pid ≠ pid || c.job.id ≠ j || c.isFinished
  | _ => true

/-- A script's `FINISHED` call is its last. -/
theorem script_eq_append {es : List Event} {r : Result} {done rest : List Message} {m : Message}
    (h : script es r = done ++ m :: rest) :
    (∃ e, m = .event e ∧ rest ≠ []) ∨ (m = .finished r ∧ rest = []) := by
  cases rest using List.reverseRecOn with
  | nil =>
      have hl := congrArg List.getLast? h
      rw [script, List.getLast?_append, List.getLast?_append] at hl
      simp only [List.getLast?_singleton, Option.some_or, Option.some.injEq] at hl
      exact Or.inr ⟨hl.symm, rfl⟩
  | append_singleton rest l _ =>
      rw [script, ← List.cons_append, ← List.append_assoc] at h
      have hi := (List.append_inj' h rfl).1
      have hm : m ∈ es.map Message.event := by
        rw [hi]
        exact List.mem_append_right _ List.mem_cons_self
      obtain ⟨e, -, rfl⟩ := List.mem_map.mp hm
      exact Or.inl ⟨e, rfl, by simp⟩

/-- `handle_call` reads the next call: `t` is what is not written yet of the calls `ms` after it. -/
theorem handleCall_next {m : Message} {ms : List Message} {u t : List UInt8} {resp : Result}
    {eof : Bool} {k : Handled} (hm : m.Fits) (hu : u ++ t = serialiseMessage m ++ wire ms)
    (heof : eof = true → t = []) (h : handleCall resp eof u = some k) :
    k.rest ++ t = wire ms ∧ k.resp = resp.merge m.result ∧ k.event = m.told ∧
      (k.again = true ↔ ∃ e, m = .event e) := by
  have hd : ∃ rest, deserialiseCall u = some (some m.received, rest) ∧ rest ++ t = wire ms := by
    cases hc : deserialiseCall u with
    | none =>
        rw [handleCall, hc] at h
        simp only at h
        split at h
        case isTrue he =>
          -- at the end of the stream nothing of the call is missing
          rw [heof he, List.append_nil] at hu
          rw [hu, decodes_message hm] at hc
          cases hc
        · cases h
    | some vr =>
        obtain ⟨v, rest⟩ := vr
        obtain ⟨rfl, hr⟩ := streaming_call.eq_of_decodes hc (decodes_message hm) hu
        exact ⟨rest, rfl, hr⟩
  obtain ⟨rest, hc, hr⟩ := hd
  rw [handleCall, hc] at h
  cases m with
  | event e =>
      cases h
      exact ⟨hr, by rw [Event.getResult_normalise]; rfl, rfl, by simp⟩
  | finished r =>
      cases h
      exact ⟨hr, rfl, rfl, by simp⟩

/-! ### What is reported of a job -/

theorem reports_dispatch (r : Runner J) (j : Nat) (cb : Callback J) :
    reports j (r.dispatch cb).calls = reports j r.calls ++ reports j [cb] :=
  reports_append j r.calls [cb]

/-- The end of another job is not reported under `j`. -/
theorem reports_reapChild_of_ne {r : Runner J} {c : Child J} {st : Status} {j : Nat}
    (h : c.job.id ≠ j) : reports j (r.reapChild c st).calls = reports j r.calls := by
  simp only [Runner.reapChild]
  cases exitEvent c.pid st <;> simp [reports, h]

/-- The end of a job whose child exited with status zero. -/
theorem reports_reapChild_exited (r : Runner J) (c : Child J) :
    reports c.job.id (r.reapChild c (.exited 0)).calls =
      reports c.job.id r.calls ++ [.finished (c.result.merge .pass)] := by
  simp [Runner.reapChild, exitEvent, reports]

/-- A child whose time is not up is left alone by `handle_timeout`. -/
theorem handleTimeouts_of_not_due {now : Int} {j : Nat} (r : Runner J) (cs : List (Child J))
    (h : ∀ c ∈ cs, c.job.id = j → c.isFinished = true ∨ c.state = .running ∧ now < c.deadline) :
    reports j (handleTimeouts now r cs).1.calls = reports j r.calls ∧
      ∀ c ∈ cs, c.job.id = j → c ∈ (handleTimeouts now r cs).2 := by
  induction cs generalizing r with
  | nil => exact ⟨rfl, fun c hc => by cases hc⟩
  | cons c cs ih =>
      have ih' := fun r => ih r fun d hd => h d (List.mem_cons_of_mem _ hd)
      rw [handleTimeouts]
      generalize hp : (if c.isFinished then (r, c) else handleTimeout now r c) = p
      have hc : reports j p.1.calls = reports j r.calls ∧ (c.job.id = j → p.2 = c) := by
        by_cases hf : c.isFinished = true
        · rw [if_pos hf] at hp
          rw [← hp]
          exact ⟨rfl, fun _ => rfl⟩
        · rw [if_neg hf] at hp
          by_cases hj : c.job.id = j
          · obtain ⟨hst, hlt⟩ := (h c List.mem_cons_self hj).resolve_left hf
            rw [handleTimeout, hst] at hp
            simp only [if_neg (Int.not_le.mpr hlt)] at hp
            rw [← hp]
            exact ⟨rfl, fun _ => rfl⟩
          · refine ⟨?_, fun he => absurd he hj⟩
            rw [← hp, handleTimeout]
            cases c.state
            · simp only
              split
              · simp [reports, hj]
              · rfl
            · rfl
            · rfl
            · rfl
      obtain ⟨h₁, h₂⟩ := ih' p.1
      refine ⟨h₁.trans hc.1, fun d hd hj => ?_⟩
      rcases List.mem_cons.mp hd with rfl | hd
      · rw [hc.2 hj]
        exact List.mem_cons_self
      · exact List.mem_cons_of_mem _ (h₂ d hd hj)

/-! ### The invariant of one job -/

/-- The job `j` is being run by the child `c` in the process `p`: the parent has taken in the calls
`done` of the script and not the calls `rest`. -/
structure Running (j : Nat) (es : List Event) (r : Result) (s : Sys J) (c : Child J) (p : Proc)
    (done rest : List Message) : Prop where
  mem : c ∈ s.runner.children
  job : c.job.id = j
  proc : s.findProc c.pid = some p
  msgs : script es r = done ++ rest
  sent : p.sent <+: wire (script es r)
  nread : p.nread = (wire done).length
  nread_le : p.nread ≤ p.sent.length
  closed : p.isOpen = false → p.sent = wire (script es r)
  status : ∀ st, p.status = some st → st = .exited 0
  result : c.result = Result.mergeAll (done.map Message.result)
  state : c.state = if rest = [] then .finished else .running
  reports : reports j s.runner.calls = (done.filterMap Message.told).map .event
  /-- a hang-up that `poll()` has seen came with the last call alone -/
  hangup : ∀ nz i pfd nf, s.pc = .input nz i pfd nf → ∀ v ∈ pfd, v.fd = c.pid →
    v.pollhup = true → v.pollin = true ∧ rest = [.finished r]

/-- The job `j` is not being run: nothing was reported of it, or all of it was. -/
structure Idle (j : Nat) (es : List Event) (r : Result) (s : Sys J) : Prop where
  children : ∀ c ∈ s.runner.children, c.job.id ≠ j
  reports : reports j s.runner.calls = [] ∨
    reports j s.runner.calls = fullReport es r ∧ j < s.runner.nextId

/-- Where the report of a job stands: not begun or complete, or with its child. -/
def Tracked (j : Nat) (es : List Event) (r : Result) (s : Sys J) : Prop :=
  Idle j es r s ∨ ∃ c p done rest, Running j es r s c p done rest

theorem Tracked.delivered {j : Nat} {es : List Event} {r : Result} {s : Sys J}
    (h : Tracked j es r s) : Delivered j es r s.runner.calls := by
  intro res hres
  rcases h with ⟨-, hr | ⟨hr, -⟩⟩ | ⟨c, p, done, rest, h⟩
  · rw [hr] at hres
    cases hres
  · exact hr
  · rw [h.reports] at hres
    obtain ⟨e, -, he⟩ := List.mem_map.mp hres
    cases he

section Steps

variable {j : Nat} {es : List Event} {r : Result} {s s' : Sys J} {c : Child J} {p : Proc}
  {done rest : List Message}

/-- A step that does not concern the job. -/
theorem Running.frame (h : Running j es r s c p done rest) (hmem : c ∈ s'.runner.children)
    (hproc : s'.findProc c.pid = some p)
    (hrep : NovaProva.reports j s'.runner.calls = NovaProva.reports j s.runner.calls)
    (hh : ∀ nz i pfd nf, s'.pc = .input nz i pfd nf → ∀ v ∈ pfd, v.fd = c.pid →
      v.pollhup = true → v.pollin = true ∧ rest = [.finished r]) :
    Running j es r s' c p done rest :=
  ⟨hmem, h.job, hproc, h.msgs, h.sent, h.nread, h.nread_le, h.closed, h.status, h.result, h.state,
    hrep.trans h.reports, hh⟩

theorem Idle.frame (h : Idle j es r s)
    (hch : ∀ c ∈ s'.runner.children, ∃ d ∈ s.runner.children, d.job = c.job)
    (hnext : s'.runner.nextId = s.runner.nextId)
    (hrep : NovaProva.reports j s'.runner.calls = NovaProva.reports j s.runner.calls) :
    Idle j es r s' := by
  refine ⟨fun c hc he => ?_, ?_⟩
  · obtain ⟨d, hd, hj⟩ := hch c hc
    exact h.children d hd (hj ▸ he)
  · rw [hrep, hnext]
    exact h.reports

/-- The parent goes on without touching its children. -/
theorem Tracked.goto (h : Tracked j es r s) (hch : s'.runner.children = s.runner.children)
    (hnext : s'.runner.nextId = s.runner.nextId) (hp : s'.procs = s.procs)
    (hrep : reports j s'.runner.calls = reports j s.runner.calls)
    (hpc : ∀ nz i pfd nf, s'.pc = .input nz i pfd nf →
      ∃ nz' i' nf', s.pc = .input nz' i' pfd nf') : Tracked j es r s' := by
  rcases h with h | ⟨c, p, done, rest, h⟩
  · exact Or.inl (h.frame (fun c hc => ⟨c, hch ▸ hc, rfl⟩) hnext hrep)
  · refine Or.inr ⟨c, p, done, rest, h.frame (hch ▸ h.mem) ?_ hrep ?_⟩
    · rw [Sys.findProc, hp]
      exact h.proc
    · intro nz i pfd nf he
      obtain ⟨nz', i', nf', he'⟩ := hpc nz i pfd nf he
      exact h.hangup nz' i' pfd nf' he'

/-- The process of the job, or another one, changes: its own steps follow the script. -/
theorem Tracked.setProc (h : Tracked j es r s) (hw : Wf s) {pid : Pid} {q : Proc} {b : Bool}
    (hq : s.findProc pid = some q) (q' : Proc) (hpid : q'.pid = q.pid) (hread : q'.nread = q.nread)
    (hle : q.sent.length ≤ q'.sent.length)
    (hsent : q.job = some j → q.sent <+: wire (script es r) → q'.sent <+: wire (script es r))
    (hclosed : q.job = some j → (q.isOpen = false → q.sent = wire (script es r)) →
      q'.isOpen = false → q'.sent = wire (script es r))
    (hstatus : q.job = some j → (∀ st, q.status = some st → st = .exited 0) →
      ∀ st, q'.status = some st → st = .exited 0) :
    Tracked j es r { s.setProc q' with caughtSigchld := b } := by
  rcases h with h | ⟨c, p, done, rest, h⟩
  · exact Or.inl (h.frame (fun c hc => ⟨c, hc, rfl⟩) rfl rfl)
  · by_cases e : c.pid = pid
    · -- it is the job's own process
      subst e
      rw [h.proc] at hq
      cases hq
      obtain ⟨p', hp', hj⟩ := hw.procs c h.mem
      rw [h.proc] at hp'
      cases hp'
      rw [h.job] at hj
      refine Or.inr ⟨c, q', done, rest, h.mem, h.job, findProc_setProc_self h.proc hpid, h.msgs,
        hsent hj h.sent, hread.trans h.nread, ?_, hclosed hj h.closed, hstatus hj h.status,
        h.result, h.state, h.reports, h.hangup⟩
      rw [hread]
      exact h.nread_le.trans hle
    · refine Or.inr ⟨c, p, done, rest, h.frame h.mem ?_ rfl h.hangup⟩
      have hne : c.pid ≠ q'.pid := by rwa [hpid, findProc_pid hq]
      exact (findProc_setProc_of_ne hne).trans h.proc

theorem Tracked.env (h : Tracked j es r s) (hw : Wf s) {l : Label}
    (hf : followsScript j es r s l = true) (hs : s.step l = some s') (hl : l.IsEnv) :
    Tracked j es r s' := by
  cases l with
  | write pid bs =>
      obtain ⟨q, hq, hs⟩ := Option.bind_eq_some_iff.mp hs
      simp only [followsScript, hq, Option.all_some, Bool.or_eq_true, decide_eq_true_eq,
        List.isPrefixOf_iff_prefix] at hf
      split at hs
      case isTrue ho =>
        cases hs
        refine h.setProc hw hq { q with sent := q.sent ++ bs } rfl rfl (by simp)
          (fun hj _ => hf.resolve_left (not_not.mpr hj)) (fun _ _ hc => ?_) (fun _ hst => hst)
        rw [ho] at hc
        cases hc
      · cases hs
  | close pid =>
      obtain ⟨q, hq, hs⟩ := Option.bind_eq_some_iff.mp hs
      simp only [followsScript, hq, Option.all_some, Bool.or_eq_true, decide_eq_true_eq] at hf
      cases hs
      exact h.setProc hw hq { q with isOpen := false } rfl rfl le_rfl (fun _ hp => hp)
        (fun hj _ _ => hf.resolve_left (not_not.mpr hj)) (fun _ hst => hst)
  | exit pid st =>
      obtain ⟨q, hq, hs⟩ := Option.bind_eq_some_iff.mp hs
      simp only [followsScript, hq, Option.all_some, Bool.or_eq_true, Bool.and_eq_true,
        Bool.not_eq_true', decide_eq_true_eq] at hf
      split at hs
      · cases hs
        refine h.setProc hw hq { q with status := some st } rfl rfl le_rfl (fun _ hp => hp)
          (fun _ hc => hc) (fun hj _ st' hst => ?_)
        cases hst
        exact (hf.resolve_left (not_not.mpr hj)).1
      · cases hs
  | sigchld =>
      cases hs
      exact h.goto rfl rfl rfl rfl fun nz i pfd nf he => ⟨nz, i, nf, he⟩
  | stray pid =>
      simp only [Sys.step] at hs
      split at hs
      · cases hs
        rcases h with h | ⟨c, p, done, rest, h⟩
        · exact Or.inl (h.frame (fun c hc => ⟨c, hc, rfl⟩) rfl rfl)
        · exact Or.inr ⟨c, p, done, rest, h.frame h.mem (findProc_append h.proc) rfl h.hangup⟩
      · cases hs
  | _ => exact hl.elim

/-- `begin_job`. -/
theorem Tracked.fork (h : Tracked j es r s) {pid : Pid} {now : Int}
    (hs : s.step (.fork pid now) = some s') : Tracked j es r s' := by
  obtain ⟨item, todo, hpc, -, -, hnone, rfl⟩ := fork_eq_some hs
  have hrep : reports j (s.beginJob item todo pid now).runner.calls = reports j s.runner.calls := by
    simp [Sys.beginJob, reports]
  have hpc' : ∀ nz i pfd nf, (s.beginJob item todo pid now).pc ≠ .input nz i pfd nf := by
    intro nz i pfd nf he
    rw [show (s.beginJob item todo pid now).pc = .loop from hpc] at he
    cases he
  rcases h with h | ⟨c, p, done, rest, h⟩
  · by_cases hj : s.runner.nextId = j
    · -- the job begins
      refine Or.inr ⟨_, { pid := pid, job := some s.runner.nextId }, [], script es r,
        List.mem_append_right _ (List.mem_singleton_self _), hj, ?_, rfl, List.nil_prefix, rfl,
        le_rfl, fun ho => ?_, fun st hst => ?_, rfl, ?_, ?_, fun nz i pfd nf he => ?_⟩
      · show (s.procs ++ [_]).find? _ = _
        rw [List.find?_append, show s.procs.find? (fun p => p.pid = pid) = none from hnone]
        simp
      · cases ho
      · cases hst
      · have hne : script es r ≠ [] := by simp [script]
        exact (if_neg hne).symm
      · rw [hrep]
        refine h.reports.resolve_right fun hf => ?_
        exact absurd hf.2 (hj ▸ Nat.lt_irrefl _)
      · exact absurd he (hpc' nz i pfd nf)
    · refine Or.inl ⟨fun c hc => ?_, ?_⟩
      · rcases List.mem_append.mp hc with hc | hc
        · exact h.children c hc
        · cases List.mem_singleton.mp hc
          exact hj
      · rw [hrep]
        exact h.reports.imp_right fun hf => ⟨hf.1, Nat.lt_succ_of_lt hf.2⟩
  · refine Or.inr ⟨c, p, done, rest, h.frame (List.mem_append_left _ h.mem)
      (findProc_append h.proc) hrep fun nz i pfd nf he => ?_⟩
    exact absurd he (hpc' nz i pfd nf)

theorem Tracked.endRound (h : Tracked j es r s) (nz nf : Nat) :
    Tracked j es r (s.endRound nz nf) := by
  rw [Sys.endRound]
  split
  · exact h.goto rfl rfl rfl rfl fun nz i pfd nf he => by cases he
  · exact h.goto rfl rfl rfl rfl fun nz i pfd nf he => by cases he

theorem Tracked.finish (h : Tracked j es r s) : Tracked j es r s.finish := by
  refine h.goto rfl rfl rfl ?_ fun nz i pfd nf he => by cases he
  rw [Sys.finish, reports_dispatch]
  simp [reports]

/-- What `poll()` reports of the child's pipe. -/
theorem Running.revents_eq (h : Running j es r s c p done rest) {d : Child J} (he : d.pid = c.pid) :
    s.revents d = ⟨c.pid, p.unread ≠ [], !p.isOpen⟩ := by
  rw [Sys.revents, he, h.proc]

theorem revents_fd (s : Sys J) (d : Child J) : (s.revents d).fd = d.pid := by
  rw [Sys.revents]
  split <;> rfl

/-- The unread part of the script, once all of it is written. -/
theorem Running.unread_of_closed (h : Running j es r s c p done rest) (hc : p.isOpen = false) :
    p.unread = wire rest := by
  rw [Proc.unread, h.closed hc, h.nread, h.msgs, wire_append, List.drop_left]

theorem length_serialiseMessage_pos (m : Message) : 0 < (serialiseMessage m).length := by
  cases m <;> simp [serialiseMessage, serialiseUint]

/-- The last call alone is unread. -/
theorem wire_eq_finished {es : List Event} {r : Result} {done rest : List Message}
    (hs : script es r = done ++ rest) (hr : rest ≠ [])
    (h : wire rest = serialiseMessage (.finished r)) : rest = [.finished r] := by
  obtain ⟨m, rest, rfl⟩ := List.exists_cons_of_ne_nil hr
  rcases script_eq_append hs with ⟨e, rfl, hne⟩ | ⟨rfl, rfl⟩
  · -- two calls are longer than the last one
    obtain ⟨init, l, rfl⟩ := List.eq_nil_or_concat' rest |>.resolve_left hne
    have hl : l = .finished r := by
      have hg := congrArg List.getLast? hs
      rw [script, List.getLast?_append, List.getLast?_append, ← List.cons_append,
        List.getLast?_append] at hg
      simpa using hg.symm
    have hlen := congrArg List.length h
    rw [hl, wire_cons, wire_append, List.length_append, List.length_append] at hlen
    have hpos := length_serialiseMessage_pos (.event e)
    have hw : wire [Message.finished r] = serialiseMessage (.finished r) := by simp [wire]
    rw [hw] at hlen
    omega
  · rfl

theorem Running.state_of_isFinished (h : Running j es r s c p done rest) :
    c.isFinished = true ↔ rest = [] := by
  rw [Child.isFinished, h.state]
  by_cases hr : rest = []
  · simp [hr]
  · simp [hr]

/-- `poll()` returns. -/
theorem Tracked.poll (h : Tracked j es r s) (hw : Wf s) {nz : Nat} {start : Int} {o : PollOutcome}
    (hk : keepsCalls j r s (.poll start o) = true) (hs : s.pollStep nz start o = some s') :
    Tracked j es r s' := by
  rcases pollStep_cases hs with ⟨-, rfl⟩ | ⟨-, -, rfl | ⟨nz', -, -, rfl⟩ | ⟨nz', now, rfl, rfl⟩ |
      ⟨nz', rfl, rfl⟩⟩
  · exact h.goto rfl rfl rfl rfl fun nz i pfd nf he => by cases he
  · exact h.goto rfl rfl rfl rfl fun nz i pfd nf he => by cases he
  · exact h.goto rfl rfl rfl rfl fun nz i pfd nf he => by cases he
  · obtain ⟨k₁, -, -, k₄, -⟩ := handleTimeouts_spec now s.runner s.runner.children
    have hdue : ∀ c ∈ s.runner.children, c.job.id = j →
        c.isFinished = true ∨ c.state = .running ∧ now < c.deadline := by
      intro d hd hj
      rcases h with h | ⟨c, p, done, rest, h⟩
      · exact absurd hj (h.children d hd)
      · have hdc : d = c := hw.eq_of_id hd h.mem (hj.trans h.job.symm)
        subst hdc
        by_cases hf : d.isFinished = true
        · exact Or.inl hf
        · have hne : rest ≠ [] := fun he => hf (h.state_of_isFinished.mpr he)
          have hst := h.state
          rw [if_neg hne] at hst
          have hp : d ∈ s.runner.polled := List.mem_filter.mpr ⟨hd, by simpa using hf⟩
          have hkeeps := List.all_eq_true.mp hk d hp
          simp only [Bool.or_eq_true, decide_eq_true_eq] at hkeeps
          exact Or.inr ⟨hst, hkeeps.resolve_left (not_not.mpr hj)⟩
    obtain ⟨hrep, hkeep⟩ := handleTimeouts_of_not_due s.runner s.runner.children hdue
    generalize handleTimeouts now s.runner s.runner.children = q at k₁ k₄ hrep hkeep
    rcases h with h | ⟨c, p, done, rest, h⟩
    · refine Or.inl (h.frame (fun c hc => ?_) k₄ hrep)
      have hc' : c.key ∈ s.runner.children.map Child.key := by
        rw [← k₁]
        exact List.mem_map_of_mem hc
      obtain ⟨d, hd, he⟩ := List.mem_map.mp hc'
      exact ⟨d, hd, congrArg (fun k => k.2.1) he⟩
    · refine Or.inr ⟨c, p, done, rest, h.frame (hkeep c h.mem h.job) h.proc hrep ?_⟩
      rintro nz i pfd nf ⟨⟩
  · rcases h with h | ⟨c, p, done, rest, h⟩
    · exact Or.inl (h.frame (fun c hc => ⟨c, hc, rfl⟩) rfl rfl)
    · refine Or.inr ⟨c, p, done, rest, h.frame h.mem h.proc rfl ?_⟩
      rintro nz i pfd nf ⟨⟩ v hv hfd hhup
      obtain ⟨d, hd, rfl⟩ := List.mem_map.mp hv
      rw [revents_fd] at hfd
      obtain ⟨hdm, hdf⟩ := List.mem_filter.mp hd
      have hdc : d = c := hw.eq_of_pid hdm h.mem hfd
      subst hdc
      rw [h.revents_eq rfl] at hhup ⊢
      have hclosed : p.isOpen = false := by simpa using hhup
      have hunread : p.unread = serialiseMessage (.finished r) := by
        have hkeeps := List.all_eq_true.mp hk d hd
        simp only [Bool.or_eq_true, decide_eq_true_eq, h.proc, Option.all_some,
          hclosed] at hkeeps
        simpa [h.job] using hkeeps
      have hne : rest ≠ [] := by
        intro he
        rw [h.state_of_isFinished.mpr he] at hdf
        cases hdf
      refine ⟨?_, wire_eq_finished h.msgs hne ?_⟩
      · have hpos := length_serialiseMessage_pos (.finished r)
        rw [← hunread, List.length_pos_iff] at hpos
        simpa using hpos
      · rw [← h.unread_of_closed hclosed, hunread]

/-- One call of the script is read off the pipe. -/
theorem Running.read (h : Running j es r s c p done rest) (hfit : ∀ m ∈ script es r, m.Fits)
    {k : Handled} (hf : c.isFinished = false)
    (hk : handleCall c.result (!p.isOpen) p.unread = some k) :
    ∃ m rest', rest = m :: rest' ∧ k.resp = Result.mergeAll ((done ++ [m]).map Message.result) ∧
      k.event = m.told ∧ p.sent.length - k.rest.length = (wire (done ++ [m])).length ∧
      (k.again = true ↔ rest' ≠ []) := by
  have hne : rest ≠ [] := fun he => by
    rw [h.state_of_isFinished.mpr he] at hf
    cases hf
  obtain ⟨m, rest', rfl⟩ := List.exists_cons_of_ne_nil hne
  -- `t` is what the child has not written yet
  obtain ⟨t, ht⟩ := h.sent
  have hu : p.unread ++ t = serialiseMessage m ++ wire rest' := by
    rw [Proc.unread, ← List.drop_append_of_le_length h.nread_le, ht, h.msgs, h.nread, wire_append,
      List.drop_left, wire_cons]
  have heof : (!p.isOpen) = true → t = [] := by
    intro he
    rw [h.closed (by simpa using he)] at ht
    exact List.append_right_eq_self.mp ht
  have hm : m.Fits := hfit m (by rw [h.msgs]; simp)
  obtain ⟨hrest, hresp, hev, hagain⟩ := handleCall_next hm hu heof hk
  refine ⟨m, rest', rfl, ?_, hev, ?_, ?_⟩
  · rw [hresp, h.result, List.map_append, Result.mergeAll_append]
    simp
  · have h₁ := congrArg List.length ht
    have h₂ := congrArg List.length hrest
    rw [h.msgs, wire_append, wire_cons] at h₁
    rw [wire_append, wire_cons]
    simp only [List.length_append] at h₁ h₂ ⊢
    have h₃ : (wire ([] : List Message)).length = 0 := rfl
    omega
  · rw [hagain]
    rcases script_eq_append h.msgs with ⟨e, rfl, hne'⟩ | ⟨rfl, rfl⟩
    · exact ⟨fun _ => hne', fun _ => ⟨e, rfl⟩⟩
    · simp

/-- An entry of `pfd_` is looked at once. -/
theorem Wf.fd_not_mem (hw : Wf s) {nz i nf : Nat} {v : Revents} {pfd : List Revents}
    (hpc : s.pc = .input nz i (v :: pfd) nf) : ∀ w ∈ pfd, w.fd ≠ v.fd := by
  have ha := hw.aligned _ _ _ _ hpc
  have hnodup : ((v :: pfd).map (·.fd)).Nodup := by
    rw [ha]
    exact hw.pids.sublist ((List.filter_sublist.trans (List.drop_sublist _ _)).map _)
  rw [List.map_cons, List.nodup_cons] at hnodup
  intro w hw he
  exact hnodup.1 (he ▸ List.mem_map_of_mem hw)

/-- The entry of `pfd_` that is looked at next is that of the next unfinished child. -/
theorem Wf.fd_eq (hw : Wf s) {nz i nf : Nat} {v : Revents} {pfd : List Revents} {d : Child J}
    (hpc : s.pc = .input nz i (v :: pfd) nf) (hi : s.runner.children[i]? = some d)
    (hf : d.isFinished = false) : v.fd = d.pid := by
  obtain ⟨hlt, he⟩ := List.getElem?_eq_some_iff.mp hi
  have ha := hw.aligned _ _ _ _ hpc
  rw [List.drop_eq_getElem_cons hlt, he, List.filter_cons_of_pos (by simp [hf])] at ha
  exact (List.cons.inj ha).1

/-- One turn of the loop over `children_`, at the job's own child. -/
theorem Running.inputOwn (h : Running j es r s c p done rest) (hw : Wf s)
    (hfit : ∀ m ∈ script es r, m.Fits) {nz i nf : Nat} {v : Revents} {pfd : List Revents}
    (hpc : s.pc = .input nz i (v :: pfd) nf) (hi : s.runner.children[i]? = some c)
    (hf : c.isFinished = false) {s₁ : Sys J} {c₁ : Child J}
    (h₁ : (if v.pollin then s.input i c else some (s, c)) = some (s₁, c₁)) {nf' : Nat} :
    Tracked j es r { s₁ with
      runner := { s₁.runner with
        children := s₁.runner.children.set i (if v.pollhup then c₁.handleHangup else c₁) }
      pc := .input nz (i + 1) pfd nf' } := by
  have hfd := hw.fd_eq hpc hi hf
  have hlt : i < s.runner.children.length := (List.getElem?_eq_some_iff.mp hi).1
  have hhup := h.hangup _ _ _ _ hpc v List.mem_cons_self hfd
  have hlater : ∀ nz' i' pfd' nf'', Pc.input nz (i + 1) pfd nf' = .input nz' i' pfd' nf'' →
      ∀ w ∈ pfd', w.fd ≠ c.pid := by
    rintro _ _ _ _ ⟨⟩ w hw'
    exact hfd ▸ hw.fd_not_mem hpc w hw'
  by_cases hin : v.pollin = true
  · rw [if_pos hin] at h₁
    obtain ⟨p', k, hp', hk, rfl, rfl⟩ := input_eq_some h₁
    rw [h.proc] at hp'
    cases hp'
    obtain ⟨m, rest', rfl, hresp, hev, hread, hagain⟩ := h.read hfit hf hk
    have hstate : c.state = .running := by rw [h.state, if_neg (by simp)]
    -- a hang-up seen with the last call finishes a child that is finished already
    have hc₂ : (if v.pollhup then (c.handleInput k).handleHangup else c.handleInput k) =
        c.handleInput k := by
      split
      case isTrue hv =>
        have hlast := (hhup hv).2
        have hag : k.again = false := by
          rw [Bool.eq_false_iff]
          intro ha
          exact hagain.mp ha (List.cons.inj hlast).2
        simp [Child.handleHangup, Child.handleInput, hag]
      · rfl
    rw [hc₂]
    refine Or.inr ⟨c.handleInput k, { p with nread := p.sent.length - k.rest.length },
      done ++ [m], rest', ?_, h.job, findProc_setProc_self h.proc rfl, ?_, h.sent, hread, ?_,
      h.closed, h.status, hresp, ?_, ?_, fun nz' i' pfd' nf'' he w hw' hwfd => ?_⟩
    · refine List.mem_iff_getElem?.mpr ⟨i, ?_⟩
      show ((s.runner.children.set i _).set i _)[i]? = _
      rw [List.set_set, List.getElem?_set_self hlt]
    · rw [h.msgs, List.append_assoc, List.singleton_append]
    · exact Nat.sub_le _ _
    · show (if k.again then c.state else .finished) = _
      rw [hstate]
      by_cases ha : k.again = true
      · rw [if_pos ha, if_neg (hagain.mp ha)]
      · rw [if_neg ha, if_pos (not_not.mp fun hn => ha (hagain.mpr hn))]
    · show NovaProva.reports j (Option.elim k.event s.runner _).calls = _
      rw [hev, List.filterMap_append, List.map_append, ← h.reports]
      cases m with
      | event e =>
          show NovaProva.reports j (s.runner.dispatch _).calls = _
          rw [reports_dispatch]
          simp [NovaProva.reports, Message.told, h.job]
      | finished r' => simp [Message.told]
    · exact absurd hwfd (hlater nz' i' pfd' nf'' he w hw')
  · rw [if_neg hin] at h₁
    cases h₁
    have hv : ¬ v.pollhup = true := fun hv => hin (hhup hv).1
    rw [if_neg hv]
    refine Or.inr ⟨c, p, done, rest, h.frame ?_ h.proc rfl ?_⟩
    · exact List.mem_iff_getElem?.mpr ⟨i, List.getElem?_set_self hlt⟩
    · intro nz' i' pfd' nf'' he w hw' hwfd
      exact absurd hwfd (hlater nz' i' pfd' nf'' he w hw')

/-- Reading another child's pipe. -/
theorem input_other {i : Nat} {d d₁ : Child J} {s₁ : Sys J} {b : Bool} (hj : d.job.id ≠ j)
    (h : (if b then s.input i d else some (s, d)) = some (s₁, d₁)) :
    reports j s₁.runner.calls = reports j s.runner.calls ∧
      ∀ pid, pid ≠ d.pid → s₁.findProc pid = s.findProc pid := by
  split at h
  · obtain ⟨q, k, hq, -, rfl, rfl⟩ := input_eq_some h
    refine ⟨?_, fun pid hne => ?_⟩
    · cases k.event <;> simp [reports, hj]
    · have hne : pid ≠ q.pid := by rwa [findProc_pid hq]
      exact findProc_setProc_of_ne (p := { q with nread := q.sent.length - k.rest.length }) hne
  · cases h
    exact ⟨rfl, fun _ _ => rfl⟩

/-- One turn of the loop over `children_`. -/
theorem Tracked.input (h : Tracked j es r s) (hw : Wf s) (hfit : ∀ m ∈ script es r, m.Fits)
    {nz i nf : Nat} {pfd : List Revents} (hpc : s.pc = .input nz i pfd nf)
    (hs : s.inputStep nz i pfd nf = some s') : Tracked j es r s' := by
  rcases inputStep_cases hs with ⟨hi, rfl⟩ | ⟨d, hi, hf, rfl⟩ |
      ⟨d, v, pfd', s₁, d₁, hi, hf, rfl, h₁, rfl⟩
  · exact h.endRound nz nf
  · refine h.goto rfl rfl rfl rfl ?_
    rintro nz' i' pfd' nf' ⟨⟩
    exact ⟨nz, i, nf, hpc⟩
  · obtain ⟨hlt, he⟩ := List.getElem?_eq_some_iff.mp hi
    have hd : d ∈ s.runner.children := List.mem_of_getElem? hi
    obtain ⟨kpid, kjob, kch, -, -, knext, -⟩ := input_frame h₁ hi
    by_cases hj : d.job.id = j
    · rcases h with h | ⟨c, p, done, rest, h⟩
      · exact absurd hj (h.children d hd)
      · have hdc : d = c := hw.eq_of_id hd h.mem (hj.trans h.job.symm)
        subst hdc
        exact h.inputOwn hw hfit hpc hi hf h₁
    · obtain ⟨hrep, hproc⟩ := input_other hj h₁
      generalize hd₂ : (if v.pollhup then d₁.handleHangup else d₁) = d₂
      have hjob : d₂.job = d.job := by
        rw [← hd₂, ← kjob]
        split <;> rfl
      have hset : s₁.runner.children.set i d₂ = s.runner.children.set i d₂ := by
        rw [kch, List.set_set]
      rcases h with h | ⟨c, p, done, rest, h⟩
      · refine Or.inl (h.frame (fun c hc => ?_) knext hrep)
        have hc : c ∈ s₁.runner.children.set i d₂ := hc
        rw [hset] at hc
        rcases List.mem_or_eq_of_mem_set hc with hc | rfl
        · exact ⟨c, hc, rfl⟩
        · exact ⟨d, hd, hjob.symm⟩
      · have hne : c ≠ d := fun hcd => hj (hcd ▸ h.job)
        refine Or.inr ⟨c, p, done, rest, h.frame ?_ ?_ hrep ?_⟩
        · show c ∈ s₁.runner.children.set i d₂
          rw [hset]
          obtain ⟨k, hk⟩ := List.mem_iff_getElem?.mp h.mem
          refine List.mem_iff_getElem?.mpr ⟨k, ?_⟩
          rw [List.getElem?_set_ne, hk]
          rintro rfl
          rw [hi] at hk
          exact hne (Option.some.inj hk).symm
        · refine (hproc c.pid fun hp => hne (hw.eq_of_pid h.mem hd hp)).trans h.proc
        · rintro nz' i' pfd'' nf' ⟨⟩ w hw'
          exact h.hangup _ _ _ _ hpc w (List.mem_cons_of_mem _ hw')

/-- The result a job ends with when all its calls arrived. -/
theorem mergeAll_script (es : List Event) (r : Result) :
    (Result.mergeAll ((script es r).map Message.result)).merge .pass =
      Result.mergeAll (es.map Event.getResult ++ [r, .pass]) := by
  have hes : (es.map Message.event).map Message.result = es.map Event.getResult := by
    rw [List.map_map]
    rfl
  rw [script, List.map_append, hes, Result.mergeAll_append, Result.mergeAll_append]
  simp only [List.map_cons, List.map_nil, Result.mergeAll_cons, Result.mergeAll_nil,
    Result.merge_unknown, Result.merge_assoc]
  rfl

theorem told_script (es : List Event) (r : Result) :
    ((script es r).filterMap Message.told).map Message.event =
      es.map fun e => .event e.received.normalise := by
  rw [script, List.filterMap_append, List.filterMap_map]
  simp [Message.told, List.map_filterMap, Function.comp_def]

/-- A process is waited for that is not the one of the job's child, which stays. -/
theorem Tracked.reapOther (h : Tracked j es r s) {q : Proc} {st : Status} {pc : Pc}
    (hpc : ∀ nz i pfd nf, pc ≠ .input nz i pfd nf)
    (hsub : (s.reap q st).runner.children ⊆ s.runner.children)
    (hkept : ∀ c ∈ s.runner.children, c.job.id = j →
      c ∈ (s.reap q st).runner.children ∧ c.pid ≠ q.pid)
    (hnext : (s.reap q st).runner.nextId = s.runner.nextId)
    (hrep : reports j (s.reap q st).runner.calls = reports j s.runner.calls) :
    Tracked j es r { s.reap q st with pc := pc } := by
  rcases h with h | ⟨c, p, done, rest, h⟩
  · exact .inl (h.frame (fun c hc => ⟨c, hsub hc, rfl⟩) hnext hrep)
  · obtain ⟨hmem, hpid⟩ := hkept c h.mem h.job
    have hproc : (s.reap q st).findProc c.pid = some p := (findProc_reap hpid).trans h.proc
    exact .inr ⟨c, p, done, rest, h.frame hmem hproc hrep fun nz i pfd nf he =>
      absurd he (hpc nz i pfd nf)⟩

/-- No other child has the job. -/
theorem Wf.job_ne_of_split (hw : Wf s) {as bs : List (Child J)}
    (hch : s.runner.children = as ++ c :: bs) {d : Child J} (hd : d ∈ as ++ bs) :
    d.job.id ≠ c.job.id := by
  intro he
  have hids := hw.ids
  rw [hch, List.map_append, List.map_cons, List.nodup_middle, List.nodup_cons] at hids
  refine hids.1 ?_
  rw [← he, ← List.map_append]
  exact List.mem_map_of_mem hd

/-- The job's child is waited for, which has finished: everything was told. -/
theorem Running.reaped (h : Running j es r s c p done []) (hw : Wf s) {st : Status} {pc : Pc}
    (hst : p.status = some st) {as bs : List (Child J)}
    (hch : s.runner.children = as ++ c :: bs)
    (hr : s.runner.reap p.pid st = s.runner.reapChild c st)
    (hch' : (s.runner.reap p.pid st).children = as ++ bs) :
    Idle j es r { s.reap p st with pc := pc } := by
  have hdone : done = script es r := by rw [h.msgs, List.append_nil]
  obtain rfl := h.status st hst
  refine ⟨fun d hd => ?_, .inr ⟨?_, ?_⟩⟩
  · have hd : d ∈ as ++ bs := hch' ▸ hd
    exact h.job ▸ hw.job_ne_of_split hch hd
  · show NovaProva.reports j (s.runner.reap p.pid (.exited 0)).calls = _
    rw [hr, ← h.job, reports_reapChild_exited, h.job, h.reports, h.result, hdone, told_script,
      mergeAll_script, fullReport]
  · show j < (s.runner.reap p.pid (.exited 0)).nextId
    rw [hr, Runner.reapChild_nextId, ← h.job]
    exact hw.lt c h.mem

/-- A process is waited for. -/
theorem Tracked.reap (h : Tracked j es r s) (hw : Wf s) {q : Proc} {pid : Pid} {st : Status}
    {pc : Pc} (hq : s.findProc pid = some q) (hst : q.status = some st)
    (hpc : ∀ nz i pfd nf, pc ≠ .input nz i pfd nf)
    (hfin : ∀ c ∈ s.runner.children, c.pid = pid → c.job.id = j → c.isFinished = true) :
    Tracked j es r { s.reap q st with pc := pc } := by
  have hqpid := findProc_pid hq
  rcases s.runner.reap_cases q.pid st with ⟨hr, hno⟩ | ⟨d, as, bs, hdp, hch, hr, hch'⟩
  · -- no child of the runner's
    have hr : (s.reap q st).runner = s.runner := hr
    refine h.reapOther hpc ?_ (fun c hc _ => ⟨?_, hno c hc⟩) ?_ ?_
    · rw [hr]
      exact List.Subset.refl _
    · rwa [hr]
    · rw [hr]
    · rw [hr]
  · have hd : d ∈ s.runner.children := by
      rw [hch]
      simp
    by_cases hj : d.job.id = j
    · -- the job ends
      rcases h with h | ⟨c, p, done, rest, h⟩
      · exact absurd hj (h.children d hd)
      · obtain rfl : d = c := hw.eq_of_id hd h.mem (hj.trans h.job.symm)
        obtain rfl := h.state_of_isFinished.mp (hfin d hd (hdp.trans hqpid) hj)
        obtain rfl : p = q := by
          have hproc := h.proc
          rw [hdp.trans hqpid, hq] at hproc
          exact (Option.some.inj hproc).symm
        exact .inl (h.reaped hw hst hch hr hch')
    · have hch' : (s.reap q st).runner.children = as ++ bs := hch'
      have hr : (s.reap q st).runner = s.runner.reapChild d st := hr
      refine h.reapOther hpc ?_ (fun c hc hcj => ?_) ?_ ?_
      · rw [hch', hch]
        exact (List.Sublist.append_left (List.sublist_cons_self d bs) as).subset
      · have hne : c ≠ d := fun hcd => hj (hcd ▸ hcj)
        refine ⟨?_, fun hp => hne (hw.eq_of_pid hc hd (hp.trans hdp.symm))⟩
        rw [hch', List.mem_append]
        rw [hch, List.mem_append, List.mem_cons] at hc
        exact hc.imp_right fun hc => hc.resolve_left hne
      · rw [hr, Runner.reapChild_nextId]
      · rw [hr, reports_reapChild_of_ne hj]

theorem Tracked.waitOver (h : Tracked j es r s)
    (hs : s.step .waitNone = some s' ∨ s.step .waitError = some s') : Tracked j es r s' := by
  rcases waitOver_cases hs with ⟨nz, num, -, rfl⟩ | ⟨pid, -, rfl⟩ | ⟨-, rfl⟩
  · exact h.endRound nz num
  · exact h.goto rfl rfl rfl rfl fun nz i pfd nf he => by cases he
  · exact h.finish

theorem Tracked.step (h : Tracked j es r s) (hw : Wf s) (hfit : ∀ m ∈ script es r, m.Fits)
    {l : Label} (hf : followsScript j es r s l = true) (hk : keepsCalls j r s l = true)
    (hs : s.step l = some s') : Tracked j es r s' := by
  cases l with
  | write pid bs => exact h.env hw hf hs trivial
  | close pid => exact h.env hw hf hs trivial
  | exit pid st => exact h.env hw hf hs trivial
  | sigchld => exact h.env hw hf hs trivial
  | stray pid => exact h.env hw hf hs trivial
  | fork pid now => exact h.fork hs
  | forkFails =>
      obtain ⟨item, todo, -, -, -, rfl⟩ := forkFails_eq_some hs
      refine h.goto rfl rfl rfl ?_ fun nz i pfd nf he => by cases he
      rw [reports_dispatch]
      simp [reports]
  | poll start o =>
      obtain ⟨nz, -, hs⟩ := poll_eq_some hs
      exact h.poll hw hk hs
  | waited pid =>
      obtain ⟨q, st, hq, hst, hs⟩ := waitedStep_cases hs
      have hk' : (∀ pid', s.pc ≠ .reapPid pid') →
          ∀ c ∈ s.runner.children, c.pid = pid → c.job.id = j → c.isFinished = true := by
        intro hne c hc hp hj
        simp only [keepsCalls] at hk
        simpa [hp, hj] using List.all_eq_true.mp hk c hc
      rcases hs with ⟨nz, num, hpc, rfl⟩ | ⟨hpc | hpc, rfl⟩
      · refine h.reap hw hq hst (fun _ _ _ _ he => by cases he) (hk' fun pid' he => ?_)
        cases hpc.symm.trans he
      · refine h.reap hw hq hst (fun _ _ _ _ he => ?_) fun c hc hp _ => hw.reaping pid hpc c hc hp
        cases hpc.symm.trans he
      · refine h.reap hw hq hst (fun _ _ _ _ he => ?_) (hk' fun pid' he => ?_)
        · cases hpc.symm.trans he
        · cases hpc.symm.trans he
  | waitNone => exact h.waitOver (.inl hs)
  | waitStopped => exact waitStopped_eq hs ▸ h
  | waitError => exact h.waitOver (.inr hs)
  | tau =>
      rcases tau_cases hs with ⟨-, -, ⟨-, -, rfl⟩ | ⟨-, -, rfl⟩ | ⟨-, rfl⟩⟩ |
          ⟨nz, i, pfd, nf, hpc, hs⟩ | ⟨-, ⟨-, rfl⟩ | ⟨c, -, rfl⟩⟩
      · exact h.goto rfl rfl rfl rfl fun nz i pfd nf he => by cases he
      · exact h.finish
      · exact h.goto rfl rfl rfl rfl fun nz i pfd nf he => by cases he
      · exact h.input hw hfit hpc hs
      · exact h.goto rfl rfl rfl rfl fun nz i pfd nf he => by cases he
      · exact h.goto rfl rfl rfl rfl fun nz i pfd nf he => by cases he

end Steps

/-! ### Whole runs -/

/-- **The calls of a job arrive** in every run in which its child follows its script and no step
loses them: when the job is ended, its events were reported once each and in order, and its result
is the worst of theirs, `r` and `R_PASS`. -/
theorem wait_delivers_calls {rn : Runner J} {plan : List J} {s : Sys J} {j : Nat}
    {es : List Event} {r : Result} (hch : rn.children = []) (hcalls : rn.calls = [])
    (hfit : ∀ m ∈ script es r, m.Fits)
    (h : Run Sys.step (fun s l => (followsScript j es r s l && keepsCalls j r s l) = true)
      (Sys.start rn plan) s) :
    Delivered j es r s.runner.calls := by
  have hstart : Tracked j es r (Sys.start rn plan) := by
    refine Or.inl ⟨fun c hc => ?_, Or.inl ?_⟩
    · rw [show (Sys.start rn plan).runner.children = [] from hch] at hc
      cases hc
    · simp [Sys.start, hcalls, reports]
  have hw := h.strengthen (wf_start hch plan) fun _ _ _ hu _ hs => hu.step hs
  refine Tracked.delivered (hw.invariant hstart ?_)
  intro u l v hu hP hs
  obtain ⟨hf, hk⟩ := Bool.and_eq_true_iff.mp hP.1
  exact hu.step hP.2 hfit hf hk hs

/-- A failed assertion, read before the pipe is closed. -/
theorem wait_delivers_assert :
    ∃ s : Sys Unit, .finished .fail ∈ reports 1 s.runner.calls ∧
      Delivered 1 [{ which := .assert }] .fail s.runner.calls := by
  let e : Event := { which := .assert }
  let ls : List Label := [.fork 100 0, .tau, .write 100 (serialiseMessage (.event e)),
    .poll 0 .ready, .tau, .tau, .write 100 (serialiseMessage (.finished .fail)), .close 100,
    .exit 100 (.exited 0), .poll 0 .ready, .tau, .tau, .tau, .waited 100]
  have hrun : (execute Sys.step (fun s l => followsScript 1 [e] .fail s l && keepsCalls 1 .fail s l)
      (Sys.start ({} : Runner Unit) [()]) ls).any
        (fun s => .finished .fail ∈ reports 1 s.runner.calls) = true := by decide +kernel
  obtain ⟨s, hs, hres⟩ := Run.of_execute hrun
  exact ⟨s, of_decide_eq_true hres, wait_delivers_calls rfl rfl (by decide) hs⟩

/-- A child that closes its pipe before the parent has read its calls: the first of them is
reported, the failed assertion and the result are not, and the test passes. -/
theorem wait_loses_calls_at_hangup :
    ∃ s : Sys Unit, Run Sys.step (fun s l =>
        followsScript 1 [{ which := .syslog }, { which := .assert }] .fail s l = true)
        (Sys.start ({} : Runner Unit) [()]) s ∧
      ¬ Delivered 1 [{ which := .syslog }, { which := .assert }] .fail s.runner.calls := by
  let es : List Event := [{ which := .syslog }, { which := .assert }]
  let ls : List Label := [.fork 100 0, .tau, .write 100 (wire (script es .fail)), .close 100,
    .exit 100 (.exited 0), .poll 0 .ready, .tau, .tau, .tau, .waited 100]
  have hrun : (execute Sys.step (followsScript 1 es .fail) (Sys.start ({} : Runner Unit) [()])
      ls).any (fun s => .finished .pass ∈ reports 1 s.runner.calls ∧
        reports 1 s.runner.calls ≠ fullReport es .fail) = true := by decide +kernel
  obtain ⟨s, hs, hres⟩ := Run.of_execute hrun
  obtain ⟨hpass, hne⟩ := of_decide_eq_true hres
  exact ⟨s, hs, fun h => hne (h .pass hpass)⟩

end NovaProva
