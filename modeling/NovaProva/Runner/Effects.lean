import NovaProva.Runner.Processes

/-!
# Runner — Effects

What one step of the parent does to its children, to what it has told its listeners and to the
signals it has sent, said once for all steps (`step_effect`).

* `Child.timedOut`, `Child.timeoutCall`, `Child.timeoutKill`: a `poll()` that timed out, child by
  child.
* `Effect`: a job is begun, the children time out, a child is read or reaped, or nothing of this
  happens.
-/

namespace NovaProva

variable {J : Type}

/-! ### A timed-out `poll()` -/

namespace Child

/-- The child after a `poll()` that timed out at `now`. -/
def timedOut (now : Int) (c : Child J) : Child J :=
  match c.state with
  | .running =>
      if c.deadline ≤ now then
        { c.mergeResult .fail with state := .timeout1, deadline := now + 3 * nanosecPerSec }
      else c
  | .timeout1 => { c with state := .timeout2, deadline := 0 }
  | .timeout2 => c
  | .finished => c

/-- What the listeners are told of the child. -/
def timeoutCall (now : Int) (c : Child J) : Option (Callback J) :=
  match c.state with
  | .running =>
      if c.deadline ≤ now then some (.addEvent c.job (timeoutEvent c.pid).normalise) else none
  | _ => none

/-- The signal that is sent to the child. -/
def timeoutKill (now : Int) (c : Child J) : Option Kill :=
  match c.state with
  | .running => if c.deadline ≤ now then some ⟨c.pid, .sigterm, now⟩ else none
  | .timeout1 => some ⟨c.pid, .sigkill, now⟩
  | _ => none

theorem timedOut_key (now : Int) (c : Child J) : (c.timedOut now).key = c.key := by
  obtain ⟨pid, j, res, st, d⟩ := c
  cases st with
  | running =>
      simp only [timedOut]
      split <;> rfl
  | timeout1 => rfl
  | timeout2 => rfl
  | finished => rfl

end Child

theorem timeoutEvent_getResult (pid : Pid) : (timeoutEvent pid).normalise.getResult = .fail := by
  rw [Event.getResult, Event.which_normalise]
  rfl

theorem handleTimeout_eq (now : Int) (r : Runner J) (c : Child J) :
    handleTimeout now r c =
      ({ r with
          calls := r.calls ++ (c.timeoutCall now).toList
          kills := r.kills ++ (c.timeoutKill now).toList },
        c.timedOut now) := by
  obtain ⟨pid, j, res, st, d⟩ := c
  cases st with
  | running =>
      simp only [handleTimeout, Child.timeoutCall, Child.timeoutKill, Child.timedOut]
      split
      · rw [timeoutEvent_getResult]
        rfl
      · simp
  | timeout1 => simp [handleTimeout, Child.timeoutCall, Child.timeoutKill, Child.timedOut]
  | timeout2 => simp [handleTimeout, Child.timeoutCall, Child.timeoutKill, Child.timedOut]
  | finished => simp [handleTimeout, Child.timeoutCall, Child.timeoutKill, Child.timedOut]

/-- The children time out one after the other, and a finished one does not. -/
theorem handleTimeouts_eq (now : Int) (r : Runner J) (cs : List (Child J)) :
    handleTimeouts now r cs =
      ({ r with
          calls := r.calls ++ cs.filterMap (Child.timeoutCall now)
          kills := r.kills ++ cs.filterMap (Child.timeoutKill now) },
        cs.map (Child.timedOut now)) := by
  induction cs generalizing r with
  | nil => simp [handleTimeouts]
  | cons c cs ih =>
      have hone : (if c.isFinished then (r, c) else handleTimeout now r c) =
          handleTimeout now r c := by
        split
        case isTrue hf =>
          have hst : c.state = .finished := of_decide_eq_true hf
          simp only [handleTimeout, hst]
        · rfl
      have hcons : ∀ {α : Type} (f : Child J → Option α),
          (c :: cs).filterMap f = (f c).toList ++ cs.filterMap f := by
        intro α f
        cases hfc : f c <;> simp [hfc]
      rw [handleTimeouts, hone, handleTimeout_eq, ih]
      simp only [hcons, List.map_cons, List.append_assoc]

/-! ### Steps -/

/-- What becomes of a child whose pipe is read: it may be finished, and it does not get better. -/
structure Child.Follows (c c' : Child J) : Prop where
  pid : c'.pid = c.pid
  job : c'.job = c.job
  state : c'.state = .finished ∨ c'.state = c.state
  deadline : c'.deadline = c.deadline
  result : c.result.code ≤ c'.result.code

/-- The result that is reported for a child that was waited for. -/
def Child.reapResult (c : Child J) (st : Status) : Result :=
  (c.result.merge ((exitEvent c.pid st).elim .unknown fun e => e.normalise.getResult)).merge .pass

/-- What the listeners are told of it. -/
def Child.reapCalls (c : Child J) (st : Status) : List (Callback J) :=
  (exitEvent c.pid st).toList.map (fun ev => .addEvent c.job ev.normalise) ++
    [.endJob c.job (c.reapResult st)]

theorem Runner.reapChild_calls (r : Runner J) (c : Child J) (st : Status) :
    (r.reapChild c st).calls = r.calls ++ c.reapCalls st := by
  simp only [reapChild, Child.reapCalls, Child.reapResult]
  cases exitEvent c.pid st <;> simp

theorem Runner.reapChild_kills (r : Runner J) (c : Child J) (st : Status) :
    (r.reapChild c st).kills = r.kills := by
  simp only [reapChild]
  cases exitEvent c.pid st <;> rfl

variable {s s' : Sys J} {l : Label}

/-- The children behind a step, what the listeners were told and the signals that were sent. -/
structure Changes (s s' : Sys J) (children : List (Child J)) (calls : List (Callback J))
    (kills : List Kill) : Prop where
  children : s'.runner.children = children
  calls : s'.runner.calls = s.runner.calls ++ calls
  kills : s'.runner.kills = s.runner.kills ++ kills

/-- No job is taken off the plan. -/
def SameJobs (s s' : Sys J) : Prop := s'.runner.nextId = s.runner.nextId ∧ s'.todo = s.todo

/-- Where `run_tests` has returned or ended the process. -/
def Pc.stopped : Pc → Bool
  | .done | .exited => true
  | _ => false

/-- How the parent gets where it is going without doing anything on the way. -/
def Sys.MovesTo (s : Sys J) (l : Label) : Pc → Prop
  | .input .. => (∃ start, l = .poll start .ready) ∨ ∃ nz i pfd nf, s.pc = .input nz i pfd nf
  | .reapAny .. =>
      (∃ start, l = .poll start .eintr ∧ s.caughtSigchld = true) ∨
        ∃ nz num, s.pc = .reapAny nz num
  | .reapPid pid =>
      s.pc = .reapFinished ∧ ∃ c, s.runner.findFinishedChild = some c ∧ c.pid = pid
  | .done | .exited => False
  | _ => True

/-- The call at the head of the pipe does not say that the test ended with a number above `R_FAIL`,
which is no `result_t`. -/
def Proc.sendsResult (p : Proc) : Bool :=
  match deserialiseCall p.unread with
  | some (some (.finished r), _) => r.IsNamed
  | _                            => true

/-- The parent reads no such call. -/
def sendsResults (s : Sys J) : Label → Bool
  | .tau => s.procs.all Proc.sendsResult
  | _    => true

/-- What a step does. -/
inductive Effect (s : Sys J) (l : Label) (s' : Sys J) : Prop where
  | quiet (pc : s'.pc = s.pc ∨ s.pc.stopped = false ∧ s.MovesTo l s'.pc) (jobs : SameJobs s s')
      (h : Changes s s' s.runner.children [] [])
  | begins {item : J} {todo : List J} {pid : Pid} {now : Int} {c : Child J}
      (label : l = .fork pid now) (pc : s.pc = .loop) (pc' : s'.pc = .loop)
      (room : s.runner.nrunning < s.runner.maxchildren)
      (before : s.todo = item :: todo) (after : s'.todo = todo)
      (nextId : s'.runner.nextId = s.runner.nextId + 1)
      (job : c.job = ⟨s.runner.nextId, item⟩) (state : c.state = .running)
      (result : c.result = .unknown)
      (h : Changes s s' (s.runner.children ++ [c]) [.beginJob c.job] [])
  | beginFails {item : J} (pc : s.pc = .loop) (pc' : s'.pc = .exited)
      (room : s.runner.nrunning < s.runner.maxchildren) (jobs : SameJobs s s')
      (h : Changes s s' s.runner.children [.beginJob ⟨s.runner.nextId, item⟩] [])
  | timesOut {start now : Int} (label : l = .poll start (.timedOut now))
      (pc : ∃ nz, s.pc = .poll nz) (pc' : ∃ nz, s'.pc = .poll nz) (jobs : SameJobs s s')
      (h : Changes s s' (s.runner.children.map (Child.timedOut now))
        (s.runner.children.filterMap (Child.timeoutCall now))
        (s.runner.children.filterMap (Child.timeoutKill now)))
  | reads {nz i nf : Nat} {pfd pfd' : List Revents} {nf' : Nat} {c c' : Child J} {evs : List Event}
      (label : l = .tau) (pc : s.pc = .input nz i pfd nf) (pc' : s'.pc = .input nz (i + 1) pfd' nf')
      (at_i : s.runner.children[i]? = some c) (unfinished : c.isFinished = false)
      (follows : c.Follows c')
      (named : sendsResults s l = true → c.result.IsNamed → c'.result.IsNamed)
      (jobs : SameJobs s s')
      (h : Changes s s' (s.runner.children.set i c') (evs.map (.addEvent c.job)) [])
  | reaps {c : Child J} (st : Status) {as bs : List (Child J)} (label : l = .waited c.pid)
      (pc : (s.pc = .reapPid c.pid ∨ s.pc = .reapRest) ∧ s'.pc = s.pc ∨
        ∃ nz num num', s.pc = .reapAny nz num ∧ s'.pc = .reapAny nz num')
      (split : s.runner.children = as ++ c :: bs) (jobs : SameJobs s s')
      (h : Changes s s' (as ++ bs) (c.reapCalls st) [])
  | finishes (pc : s.pc.stopped = false) (pc' : s'.pc = .done) (jobs : SameJobs s s')
      (h : Changes s s' s.runner.children [.finish] [])

/-- Nothing of the runner changes that its children or listeners could see. -/
theorem Effect.of_eq (hpc : s'.pc = s.pc ∨ s.pc.stopped = false ∧ s.MovesTo l s'.pc)
    (hch : s'.runner.children = s.runner.children)
    (hcalls : s'.runner.calls = s.runner.calls) (hkills : s'.runner.kills = s.runner.kills)
    (hid : s'.runner.nextId = s.runner.nextId) (htodo : s'.todo = s.todo) : Effect s l s' :=
  .quiet hpc ⟨hid, htodo⟩
    ⟨hch, by rw [hcalls, List.append_nil], by rw [hkills, List.append_nil]⟩

/-- The parent goes on to another of its loops. -/
theorem Effect.goto {b : Bool} {pc : Pc} (hpc : s.pc.stopped = false) (hto : s.MovesTo l pc) :
    Effect s l { s with caughtSigchld := b, pc := pc } :=
  .of_eq (.inr ⟨hpc, hto⟩) rfl rfl rfl rfl rfl

theorem effect_endRound (hpc : s.pc.stopped = false) (nz nf : Nat) :
    Effect s l (s.endRound nz nf) := by
  rw [Sys.endRound]
  split
  · exact .of_eq (.inr ⟨hpc, trivial⟩) rfl rfl rfl rfl rfl
  · exact .goto hpc trivial

theorem effect_finish (hpc : s.pc.stopped = false) : Effect s l s.finish :=
  .finishes hpc rfl ⟨rfl, rfl⟩ ⟨rfl, rfl, (List.append_nil _).symm⟩

theorem effect_env (hs : s.step l = some s') (hl : l.IsEnv) : Effect s l s' := by
  obtain ⟨hr, htodo, hpc⟩ := env_frame hs hl
  exact .of_eq (.inl hpc) (by rw [hr]) (by rw [hr]) (by rw [hr]) (by rw [hr]) htodo

theorem effect_fork {pid : Pid} {now : Int} (hs : s.step (.fork pid now) = some s') :
    Effect s (.fork pid now) s' := by
  obtain ⟨item, todo, hpc, htodo, hroom, -, rfl⟩ := fork_eq_some hs
  exact .begins rfl hpc hpc hroom htodo rfl rfl rfl rfl rfl
    ⟨rfl, rfl, (List.append_nil _).symm⟩

theorem effect_forkFails (hs : s.step .forkFails = some s') : Effect s .forkFails s' := by
  obtain ⟨item, todo, hpc, -, hroom, rfl⟩ := forkFails_eq_some hs
  exact .beginFails hpc rfl hroom ⟨rfl, rfl⟩ ⟨rfl, rfl, (List.append_nil _).symm⟩

theorem effect_poll {nz : Nat} {start : Int} {o : PollOutcome} (hpc : s.pc = .poll nz)
    (hs : s.pollStep nz start o = some s') : Effect s (.poll start o) s' := by
  have hrun : s.pc.stopped = false := by rw [hpc]; rfl
  rcases pollStep_cases hs with ⟨-, rfl⟩ | ⟨-, -, rfl | ⟨nz', rfl, hcaught, rfl⟩ |
      ⟨nz', now, rfl, rfl⟩ | ⟨nz', rfl, rfl⟩⟩
  · exact .goto hrun trivial
  · exact .goto hrun trivial
  · exact .goto hrun (.inl ⟨start, rfl, hcaught⟩)
  · rw [handleTimeouts_eq]
    exact .timesOut rfl ⟨nz, hpc⟩ ⟨_, rfl⟩ ⟨rfl, rfl⟩ ⟨rfl, rfl, rfl⟩
  · exact .goto hrun (.inl ⟨start, rfl⟩)

/-- Reading a call makes a result no better. -/
theorem le_code_handleCall {res : Result} {eof : Bool} {bs : List UInt8} {k : Handled}
    (h : handleCall res eof bs = some k) : res.code ≤ k.resp.code := by
  unfold handleCall at h
  split at h
  · cases h
    exact Result.le_code_merge ..
  · cases h
    exact Result.le_code_merge ..
  · cases h
    exact Result.le_code_merge ..
  · split at h
    · cases h
      exact Result.le_code_merge ..
    · cases h

/-- The result stays one of the four unless a call brings another. -/
theorem isNamed_handleCall {res : Result} {eof : Bool} {p : Proc} {k : Handled}
    (h : handleCall res eof p.unread = some k) (hp : p.sendsResult = true) (hres : res.IsNamed) :
    k.resp.IsNamed := by
  unfold handleCall at h
  unfold Proc.sendsResult at hp
  split at h
  · cases h
    exact hres.merge (Event.isNamed_getResult _)
  next res' rest heq =>
    rw [heq] at hp
    cases h
    exact hres.merge (of_decide_eq_true hp)
  · cases h
    exact hres.merge (Nat.le_refl _)
  · split at h
    · cases h
      exact hres.merge (Nat.le_refl _)
    · cases h

theorem Child.Follows.hangup {c c' : Child J} (h : c.Follows c') (b : Bool) :
    c.Follows (if b then c'.handleHangup else c') := by
  cases b with
  | true => exact ⟨h.pid, h.job, .inl rfl, h.deadline, h.result⟩
  | false => exact h

theorem Child.follows_handleInput {c : Child J} {eof : Bool} {bs : List UInt8} {k : Handled}
    (h : handleCall c.result eof bs = some k) : c.Follows (c.handleInput k) := by
  refine ⟨rfl, rfl, ?_, rfl, le_code_handleCall h⟩
  rw [handleInput]
  dsimp only
  split
  · exact .inr rfl
  · exact .inl rfl

/-- What `handle_input` makes of a child, and what the listeners are told. -/
theorem input_follows {i : Nat} {c c₁ : Child J} {s₁ : Sys J} {b : Bool}
    (h : (if b then s.input i c else some (s, c)) = some (s₁, c₁)) :
    c.Follows c₁ ∧ (sendsResults s .tau = true → c.result.IsNamed → c₁.result.IsNamed) ∧
      ∃ evs : List Event, s₁.runner.calls = s.runner.calls ++ evs.map (.addEvent c.job) ∧
        s₁.runner.kills = s.runner.kills := by
  split at h
  · obtain ⟨p, k, hp, hcall, rfl, rfl⟩ := input_eq_some h
    refine ⟨Child.follows_handleInput hcall, fun hsends => isNamed_handleCall hcall ?_,
      k.event.toList, ?_⟩
    · exact List.all_eq_true.mp hsends p (List.mem_of_find?_eq_some hp)
    cases k.event with
    | none => exact ⟨(List.append_nil _).symm, rfl⟩
    | some ev => exact ⟨rfl, rfl⟩
  · cases h
    exact ⟨⟨rfl, rfl, .inr rfl, rfl, Nat.le_refl _⟩, fun _ => id, [], (List.append_nil _).symm,
      rfl⟩

theorem effect_input {nz i nf : Nat} {pfd : List Revents} (hpc : s.pc = .input nz i pfd nf)
    (hs : s.inputStep nz i pfd nf = some s') : Effect s .tau s' := by
  have hrun : s.pc.stopped = false := by rw [hpc]; rfl
  rcases inputStep_cases hs with ⟨-, rfl⟩ | ⟨c, -, -, rfl⟩ |
      ⟨c, v, pfd', s₁, c₁, hi, hf, rfl, h₁, rfl⟩
  · exact effect_endRound hrun nz nf
  · exact .goto hrun (.inr ⟨nz, i, pfd, nf, hpc⟩)
  · obtain ⟨-, -, kch, -, -, knext, ktodo, -, -⟩ := input_frame h₁ hi
    obtain ⟨hfollows, hnamed, evs, hcalls, hkills⟩ := input_follows h₁
    refine .reads rfl hpc rfl hi hf (hfollows.hangup v.pollhup) (fun hsends hc => ?_)
      ⟨knext, ktodo⟩ ⟨?_, hcalls, ?_⟩
    · split <;> exact hnamed hsends hc
    · show s₁.runner.children.set i _ = _
      rw [kch, List.set_set]
    · rw [List.append_nil]
      exact hkills

theorem effect_reap {p : Proc} {st : Status} {pc : Pc}
    (hpc : (s.pc = .reapPid p.pid ∨ s.pc = .reapRest) ∧ pc = s.pc ∨
      ∃ nz num num', s.pc = .reapAny nz num ∧ pc = .reapAny nz num')
    (hto : pc = s.pc ∨ s.pc.stopped = false ∧ s.MovesTo (.waited p.pid) pc) :
    Effect s (.waited p.pid) { s.reap p st with pc := pc } := by
  rcases s.runner.reap_cases p.pid st with ⟨hr, -⟩ | ⟨c, as, bs, hpid, hch, hr, hch'⟩
  · refine .of_eq hto ?_ ?_ ?_ ?_ rfl
    all_goals simp only [Sys.reap, hr]
  · rw [← hpid] at hpc
    refine .reaps st (by rw [hpid]) hpc hch ⟨?_, rfl⟩ ⟨hch', ?_, ?_⟩
    · show (s.runner.reap p.pid st).nextId = _
      rw [hr, Runner.reapChild_nextId]
    · show (s.runner.reap p.pid st).calls = _
      rw [hr, Runner.reapChild_calls]
    · show (s.runner.reap p.pid st).kills = _
      rw [hr, Runner.reapChild_kills, List.append_nil]

theorem effect_waitOver {l : Label}
    (hs : s.step .waitNone = some s' ∨ s.step .waitError = some s') : Effect s l s' := by
  rcases waitOver_cases hs with ⟨nz, num, hpc, rfl⟩ | ⟨pid, hpc, rfl⟩ | ⟨hpc, rfl⟩
  · exact effect_endRound (by rw [hpc]; rfl) nz num
  · exact .goto (by rw [hpc]; rfl) trivial
  · exact effect_finish (by rw [hpc]; rfl)

/-- **What a step does**, whichever it is. -/
theorem step_effect (hs : s.step l = some s') : Effect s l s' := by
  cases l with
  | write pid bs => exact effect_env hs trivial
  | close pid => exact effect_env hs trivial
  | exit pid st => exact effect_env hs trivial
  | sigchld => exact effect_env hs trivial
  | stray pid => exact effect_env hs trivial
  | fork pid now => exact effect_fork hs
  | forkFails => exact effect_forkFails hs
  | poll start o =>
      obtain ⟨nz, hpc, hs⟩ := poll_eq_some hs
      exact effect_poll hpc hs
  | waited pid =>
      obtain ⟨p, st, hp, -, hs⟩ := waitedStep_cases hs
      obtain rfl := findProc_pid hp
      rcases hs with ⟨nz, num, hpc, rfl⟩ | ⟨hpc, rfl⟩
      · exact effect_reap (.inr ⟨nz, num, _, hpc, rfl⟩)
          (.inr ⟨by rw [hpc]; rfl, .inr ⟨nz, num, hpc⟩⟩)
      · exact effect_reap (.inl ⟨hpc, rfl⟩) (.inl rfl)
  | waitNone => exact effect_waitOver (.inl hs)
  | waitStopped =>
      obtain rfl := waitStopped_eq hs
      exact .of_eq (.inl rfl) rfl rfl rfl rfl rfl
  | waitError => exact effect_waitOver (.inr hs)
  | tau =>
      rcases tau_cases hs with ⟨hpc, -, hs⟩ | ⟨nz, i, pfd, nf, hpc, hs⟩ | ⟨hpc, hs⟩
      · have hrun : s.pc.stopped = false := by rw [hpc]; rfl
        rcases hs with ⟨-, -, rfl⟩ | ⟨-, -, rfl⟩ | ⟨-, rfl⟩
        · exact .goto hrun trivial
        · exact effect_finish hrun
        · exact .goto hrun trivial
      · exact effect_input hpc hs
      · have hrun : s.pc.stopped = false := by rw [hpc]; rfl
        rcases hs with ⟨-, rfl⟩ | ⟨c, hfind, rfl⟩
        · exact .goto hrun trivial
        · exact .goto hrun ⟨hpc, c, hfind, rfl⟩

end NovaProva
