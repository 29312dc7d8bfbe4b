import NovaProva.Runner.Proxy
import NovaProva.Lib.Runs

/-!
# Runner — Machine

`np/runner.cxx` and `np/child.cxx`: the parent process that forks one child per job, listens to
their event pipes and reaps them, together with the part of the kernel it sees them through.

The parent is one thread, and other processes reach it only through its system calls.  A state
`Sys` is the parent's data, its program counter at the next system call, and the processes it
forked; a label is one system call of the parent with its outcome, or one thing another process
does.  `poll` samples the pipes in one step, and `handle_input` is a later step for each child,
enabled when its `read`s would return, so everything other processes can do in between is an
interleaving of steps.
-/

namespace NovaProva

/-- `pid_t`, of a child. -/
abbrev Pid := Nat

/-- `NANOSEC_PER_SEC`. -/
def nanosecPerSec : Int := 1000000000

/-- The difference of two `unsigned int`s. -/
def sub32 (a b : Nat) : Nat := if b ≤ a then a - b else a + 2 ^ 32 - b

/-! ### The parent's data -/

/-- `job_t`: the plan's item under an id of its own. -/
structure Job (J : Type) where
  id : Nat
  item : J
  deriving DecidableEq

/-- `child_t::state_`. -/
inductive ChildState where
  | running
  | timeout1
  | timeout2
  | finished
  deriving DecidableEq

/-- `child_t`; its pid also stands for the descriptor of its event pipe. -/
structure Child (J : Type) where
  pid : Pid
  job : Job J
  result : Result := .unknown
  state : ChildState := .running
  deadline : Int := 0
  deriving DecidableEq

/-- What the listeners are told. -/
inductive Callback (J : Type) where
  | begin
  | finish
  | beginJob (j : Job J)
  | addEvent (j : Job J) (ev : Event)
  | endJob (j : Job J) (res : Result)
  deriving DecidableEq

/-- The signals that the runner sends. -/
inductive Signal where
  | sigterm
  | sigkill
  deriving DecidableEq

/-- A `kill(pid, sig)` and the clock reading it was made after. -/
structure Kill where
  pid : Pid
  sig : Signal
  time : Int
  deriving DecidableEq

/-- `runner_t`, with what it has told its listeners and the signals it has sent, oldest first. -/
structure Runner (J : Type) where
  children : List (Child J) := []
  nrunning : Nat := 0
  maxchildren : Nat := 1
  timeout : Int := 30
  nfailed : Nat := 0
  nrun : Nat := 0
  nextId : Nat := 1
  calls : List (Callback J) := []
  kills : List Kill := []

variable {J : Type}

namespace Child

/-- `is_finished`. -/
def isFinished (c : Child J) : Bool := c.state = .finished

/-- `merge_result`. -/
def mergeResult (c : Child J) (r : Result) : Child J := { c with result := c.result.merge r }

/-- `handle_hangup`. -/
def handleHangup (c : Child J) : Child J := { c with state := .finished }

/-- `child_t::handle_input`, given what `handle_call` did. -/
def handleInput (c : Child J) (h : Handled) : Child J :=
  { c with result := h.resp, state := if h.again then c.state else .finished }

end Child

/-- `runner_t::set_concurrency` on a machine with `cpus` processors online. -/
def setConcurrency (cpus n : Int) : Nat :=
  let n := if n = 0 then cpus else n
  (if n < 1 then 1 else n).toNat

namespace Runner

/-- A function of every listener is called. -/
def dispatch (r : Runner J) (c : Callback J) : Runner J := { r with calls := r.calls ++ [c] }

/-- `raise_event`: the listeners see the normalised event. -/
def raiseEvent (r : Runner J) (j : Job J) (ev : Event) : Runner J :=
  r.dispatch (.addEvent j ev.normalise)

/-- `find_finished_child`: the first, in start order. -/
def findFinishedChild (r : Runner J) : Option (Child J) := r.children.find? (·.isFinished)

/-- The children `wait()` puts into its poll set. -/
def polled (r : Runner J) : List (Child J) := r.children.filter fun c => !c.isFinished

end Runner

/-! ### Deadlines -/

/-- One turn of the loop that finds the earliest deadline. -/
def minTimeout (start timeout : Int) (c : Child J) : Int :=
  if c.deadline ≠ 0 then
    let left := c.deadline - start
    if left ≤ 0 then 0 else if timeout < 0 ∨ timeout > left then left else timeout
  else timeout

/-- The timeout in nanoseconds that the poll set asks for, `-1` for none. -/
def waitTimeout (start : Int) (cs : List (Child J)) : Int := cs.foldl (minTimeout start) (-1)

/-- The zero-timeout count after this round, and the timeout given to `poll()` in
milliseconds. -/
def pollTimeout (nzeroes : Nat) (timeout : Int) : Nat × Int :=
  let nz := if timeout = 0 then nzeroes + 1 else 0
  let timeout := if timeout = 0 ∧ nz > 5 then nanosecPerSec else timeout
  (nz, if timeout < 0 then -1 else (timeout + 500000) / 1000000)

/-- The event `handle_timeout` raises. -/
def timeoutEvent (pid : Pid) : Event where
  which := .timeout
  description := .text (.snprintf 80
    (CString.ascii "Child process " ++ CString.decimal pid ++ CString.ascii " timed out, killing"))

/-- `child_t::handle_timeout` for the child `c`, at the clock reading `now`. -/
def handleTimeout (now : Int) (r : Runner J) (c : Child J) : Runner J × Child J :=
  match c.state with
  | .running =>
      if c.deadline ≤ now then
        let ev := timeoutEvent c.pid
        let r := r.raiseEvent c.job ev
        ({ r with kills := r.kills ++ [⟨c.pid, .sigterm, now⟩] },
          { c.mergeResult ev.normalise.getResult with
            state := .timeout1, deadline := now + 3 * nanosecPerSec })
      else (r, c)
  | .timeout1 =>
      ({ r with kills := r.kills ++ [⟨c.pid, .sigkill, now⟩] },
        { c with state := .timeout2, deadline := 0 })
  | .timeout2 => (r, c)
  | .finished => (r, c)

/-- The timed-out branch of `wait()`: `handle_timeout` on every unfinished child in turn. -/
def handleTimeouts (now : Int) (r : Runner J) : List (Child J) → Runner J × List (Child J)
  | []      => (r, [])
  | c :: cs =>
      let p := if c.isFinished then (r, c) else handleTimeout now r c
      let q := handleTimeouts now p.1 cs
      (q.1, p.2 :: q.2)

/-! ### Reaping -/

/-- The status `waitpid` reports. -/
inductive Status where
  | exited (code : Nat)
  | signaled (sig : Nat)
  deriving DecidableEq

/-- The event raised for a child that did not exit with status zero. -/
def exitEvent (pid : Pid) : Status → Option Event
  | .exited 0 => none
  | .exited (n + 1) => some {
      which := .exit
      description := .text (.snprintf 1024
        (CString.ascii "child process " ++ CString.decimal pid ++
          CString.ascii " exited with " ++ CString.decimal (n + 1))) }
  | .signaled n => some {
      which := .signal
      description := .text (.snprintf 1024
        (CString.ascii "child process " ++ CString.decimal pid ++
          CString.ascii " died on signal " ++ CString.decimal n)) }

namespace Runner

/-- The body of `reap_children`'s loop for a child `c` that was just waited for. -/
def reapChild (r : Runner J) (c : Child J) (st : Status) : Runner J :=
  let ev := exitEvent c.pid st
  let r := ev.elim r (r.raiseEvent c.job)
  let res := (c.result.merge (ev.elim .unknown fun e => e.normalise.getResult)).merge .pass
  { r.dispatch (.endJob c.job res) with
    nfailed := (r.nfailed + if res = .fail then 1 else 0) % 2 ^ 32
    nrun := (r.nrun + 1) % 2 ^ 32
    children := r.children.eraseP fun d => d.pid = c.pid }

/-- `reap_children` after `waitpid` returned `pid` with `st`: a process that is no child of
`children_` is a stray one. -/
def reap (r : Runner J) (pid : Pid) (st : Status) : Runner J :=
  match r.children.find? fun c => c.pid = pid with
  | none   => r
  | some c => r.reapChild c st

/-- Whether `reap_children` counts the process in its return value. -/
def counts (r : Runner J) (pid : Pid) (st : Status) : Bool :=
  (r.children.any fun c => c.pid = pid) && st ≠ .exited 0

end Runner

/-! ### The processes -/

/-- A process the parent forked, until it is waited for: the job it runs (none for one that is not
in `children_`), the bytes that were written to its event pipe, how many of them the parent has
read, whether any process still holds the write end, and its status once it has exited. -/
structure Proc where
  pid : Pid
  job : Option Nat
  sent : List UInt8 := []
  nread : Nat := 0
  isOpen : Bool := true
  status : Option Status := none
  deriving DecidableEq

/-- The bytes in the pipe. -/
def Proc.unread (p : Proc) : List UInt8 := p.sent.drop p.nread

/-- `revents` of one `struct pollfd`. -/
structure Revents where
  fd : Pid
  pollin : Bool
  pollhup : Bool
  deriving DecidableEq

/-- Where the parent is. -/
inductive Pc where
  /-- the head of the loop of `run_tests` -/
  | loop
  /-- the head of the loop of `wait`, where `nfinished` is zero -/
  | poll (nzeroes : Nat)
  /-- in the loop over `children_` after `poll` found some descriptors ready: the position in
  `children_`, what is left of `pfd_`, and `nfinished` -/
  | input (nzeroes i : Nat) (pfd : List Revents) (nfinished : Nat)
  /-- in `reap_children(-1, WNOHANG)`, with `num_finished` -/
  | reapAny (nzeroes num : Nat)
  /-- at the head of the loop that reaps the finished children in start order -/
  | reapFinished
  /-- in `reap_children(pid, 0)`, called from that loop -/
  | reapPid (pid : Pid)
  /-- in `reap_children(-1, 0)` at the end of `run_tests` -/
  | reapRest
  | done
  /-- `exit(1)` in `fork_child` -/
  | exited
  /-- an assertion failed -/
  | aborted
  deriving DecidableEq

/-- The parent and the processes it forked, while it runs the items `todo` of its plan. -/
structure Sys (J : Type) where
  todo : List J
  runner : Runner J
  procs : List Proc := []
  caughtSigchld : Bool := false
  pc : Pc := .loop

/-- What `poll()` returns. -/
inductive PollOutcome where
  | ready
  | timedOut (now : Int)
  | eintr
  | error
  deriving DecidableEq

/-- The steps: a process other than the parent does something, or a system call of the parent's
returns. -/
inductive Label where
  /-- a process writes to its event pipe -/
  | write (pid : Pid) (bs : List UInt8)
  /-- the last process that holds the write end closes it -/
  | close (pid : Pid)
  | exit (pid : Pid) (st : Status)
  /-- a `SIGCHLD` that reports no exit -/
  | sigchld
  /-- a process of the parent's that is not in `children_` appears -/
  | stray (pid : Pid)
  /-- `begin_job` forks a child -/
  | fork (pid : Pid) (now : Int)
  | forkFails
  /-- `poll()` called at the clock reading `start` -/
  | poll (start : Int) (o : PollOutcome)
  /-- `waitpid` returns an exited process -/
  | waited (pid : Pid)
  /-- `waitpid` returns 0, or `ECHILD` -/
  | waitNone
  /-- `waitpid` reports a stopped process -/
  | waitStopped
  /-- `waitpid` fails otherwise -/
  | waitError
  /-- the parent goes on to its next system call -/
  | tau
  deriving DecidableEq

/-- The steps of other processes than the parent. -/
def Label.IsEnv : Label → Prop
  | .write .. | .close .. | .exit .. | .sigchld | .stray .. => True
  | _ => False

namespace Sys

/-- The process with an id. -/
def findProc (s : Sys J) (pid : Pid) : Option Proc := s.procs.find? fun p => p.pid = pid

/-- The process is replaced by its next state. -/
def setProc (s : Sys J) (p : Proc) : Sys J :=
  { s with procs := s.procs.map fun q => if q.pid = p.pid then p else q }

/-- The entry of `pfd_` that `poll()` fills in for a child. -/
def revents (s : Sys J) (c : Child J) : Revents :=
  match s.findProc c.pid with
  | some p => ⟨c.pid, p.unread ≠ [], !p.isOpen⟩
  | none   => ⟨c.pid, false, false⟩

/-- The end of a round of `wait()`: the finished children are taken off `nrunning_` and reaped, or
the loop goes round again. -/
def endRound (s : Sys J) (nzeroes nfinished : Nat) : Sys J :=
  if nfinished ≠ 0 then
    { s with
      runner := { s.runner with nrunning := sub32 s.runner.nrunning nfinished }
      pc := .reapFinished }
  else { s with pc := .poll nzeroes }

/-- The end of `run_tests`. -/
def finish (s : Sys J) : Sys J := { s with runner := s.runner.dispatch .finish, pc := .done }

/-- `begin_job` for the next item of the plan, in the parent: the listeners are told, a child is
forked as `pid`, and its deadline is set from the clock reading `now`.  Without a timeout the
source leaves the deadline unset; it is zero here. -/
def beginJob (s : Sys J) (item : J) (todo : List J) (pid : Pid) (now : Int) : Sys J :=
  let j : Job J := ⟨s.runner.nextId, item⟩
  let c : Child J := {
    pid := pid, job := j
    deadline := if s.runner.timeout ≠ 0 then now + s.runner.timeout * nanosecPerSec else 0 }
  { s with
    todo := todo
    procs := s.procs ++ [{ pid := pid, job := some j.id }]
    runner := { s.runner.dispatch (.beginJob j) with
      nextId := s.runner.nextId + 1
      children := s.runner.children ++ [c]
      nrunning := (s.runner.nrunning + 1) % 2 ^ 32 } }

/-- `handle_input` of the child `c` at position `i`, when `poll()` reported `POLLIN` for it; `none`
while its `read` blocks. -/
def input (s : Sys J) (i : Nat) (c : Child J) : Option (Sys J × Child J) := do
  let p ← s.findProc c.pid
  let h ← handleCall c.result (!p.isOpen) p.unread
  let s := s.setProc { p with nread := p.sent.length - h.rest.length }
  let c := c.handleInput h
  let r := h.event.elim s.runner fun ev => s.runner.dispatch (.addEvent c.job ev)
  return ({ s with runner := { r with children := r.children.set i c } }, c)

/-- One turn of the loop over `children_` after `poll()` found some descriptors ready. -/
def inputStep (s : Sys J) (nzeroes i : Nat) (pfd : List Revents) (nfinished : Nat) :
    Option (Sys J) :=
  match s.runner.children[i]? with
  | none => some (s.endRound nzeroes nfinished)
  | some c =>
      if c.isFinished then some { s with pc := .input nzeroes (i + 1) pfd nfinished }
      else match pfd with
        | [] => none
        | p :: pfd => (if p.pollin then s.input i c else some (s, c)).map fun q =>
            let c := if p.pollhup then q.2.handleHangup else q.2
            { q.1 with
              runner := { q.1.runner with children := q.1.runner.children.set i c }
              pc := .input nzeroes (i + 1) pfd (nfinished + if c.isFinished then 1 else 0) }

/-- `poll()` returns, in `wait()`. -/
def pollStep (s : Sys J) (nzeroes : Nat) (start : Int) (o : PollOutcome) : Option (Sys J) :=
  let pfd := s.runner.polled
  -- the two assertions
  if pfd.length ≠ s.runner.nrunning ∨ pfd.length = 0 then some { s with pc := .aborted }
  else
    let (nz, timeout) := pollTimeout nzeroes (waitTimeout start pfd)
    match o with
    | .error => some { s with pc := .loop }
    | .eintr =>
        if s.caughtSigchld then some { s with caughtSigchld := false, pc := .reapAny nz 0 }
        else some { s with pc := .loop }
    | .timedOut now =>
        if timeout = -1 then none
        else
          let p := handleTimeouts now s.runner s.runner.children
          some { s with runner := { p.1 with children := p.2 }, pc := .poll nz }
    | .ready =>
        let revents := pfd.map s.revents
        if revents.any fun p => p.pollin || p.pollhup then
          some { s with pc := .input nz 0 revents 0 }
        else none

/-- `waitpid` returns the exited process `p`. -/
def reap (s : Sys J) (p : Proc) (st : Status) : Sys J :=
  { s with runner := s.runner.reap p.pid st, procs := s.procs.eraseP fun q => q.pid = p.pid }

/-- `waitpid` returns the process `pid`, which has exited. -/
def waitedStep (s : Sys J) (pid : Pid) : Option (Sys J) := do
  let p ← s.findProc pid
  let st ← p.status
  match s.pc with
  | .reapAny nz num =>
      some { s.reap p st with
        pc := .reapAny nz (num + if s.runner.counts pid st then 1 else 0) }
  | .reapPid reqpid => if pid = reqpid then some (s.reap p st) else none
  | .reapRest => some (s.reap p st)
  | _ => none

/-- No process has exited that was not waited for. -/
def noZombie (s : Sys J) : Bool := s.procs.all fun p => p.status.isNone

/-- One step. -/
def step (s : Sys J) : Label → Option (Sys J)
  | .write pid bs => do
      let p ← s.findProc pid
      if p.isOpen then some (s.setProc { p with sent := p.sent ++ bs }) else none
  | .close pid => do
      let p ← s.findProc pid
      some (s.setProc { p with isOpen := false })
  | .exit pid st => do
      let p ← s.findProc pid
      if p.status.isNone then
        some { s.setProc { p with status := some st } with caughtSigchld := true }
      else none
  | .sigchld => some { s with caughtSigchld := true }
  | .stray pid =>
      if (s.findProc pid).isNone then
        some { s with procs := s.procs ++ [{ pid := pid, job := none }] }
      else none
  | .fork pid now =>
      match s.pc, s.todo with
      | .loop, item :: todo =>
          if s.runner.nrunning < s.runner.maxchildren ∧ (s.findProc pid).isNone then
            some (s.beginJob item todo pid now)
          else none
      | _, _ => none
  | .forkFails =>
      match s.pc, s.todo with
      | .loop, item :: _ =>
          if s.runner.nrunning < s.runner.maxchildren then
            some { s with
              runner := s.runner.dispatch (.beginJob ⟨s.runner.nextId, item⟩), pc := .exited }
          else none
      | _, _ => none
  | .poll start o =>
      match s.pc with
      | .poll nz => s.pollStep nz start o
      | _ => none
  | .waited pid => s.waitedStep pid
  | .waitNone =>
      match s.pc with
      | .reapAny nz num => if s.noZombie then some (s.endRound nz num) else none
      | .reapPid pid =>
          if (s.findProc pid).isNone then some { s with pc := .reapFinished } else none
      | .reapRest => if s.procs = [] then some s.finish else none
      | _ => none
  | .waitStopped =>
      match s.pc with
      | .reapAny _ _ | .reapPid _ | .reapRest => some s
      | _ => none
  | .waitError =>
      match s.pc with
      | .reapAny nz num => some (s.endRound nz num)
      | .reapPid _ => some { s with pc := .reapFinished }
      | .reapRest => some s.finish
      | _ => none
  | .tau =>
      match s.pc with
      | .loop =>
          if s.runner.nrunning < s.runner.maxchildren ∧ s.todo ≠ [] then none
          else if s.runner.nrunning = 0 then
            if s.runner.children ≠ [] then some { s with caughtSigchld := false, pc := .reapRest }
            else some s.finish
          else some { s with pc := .poll 0 }
      | .input nz i pfd nfinished => s.inputStep nz i pfd nfinished
      | .reapFinished =>
          match s.runner.findFinishedChild with
          | none   => some { s with pc := .loop }
          | some c => some { s with caughtSigchld := false, pc := .reapPid c.pid }
      | _ => none

/-- `run_tests` called on a runner, for a plan whose iteration gives `plan`. -/
def start (r : Runner J) (plan : List J) : Sys J where
  todo := plan
  runner := { r.dispatch .begin with nrunning := 0 }

end Sys

/-- What a step of another process leaves alone. -/
theorem env_frame {s s' : Sys J} {l : Label} (hs : s.step l = some s') (hl : l.IsEnv) :
    s'.runner = s.runner ∧ s'.todo = s.todo ∧ s'.pc = s.pc := by
  cases l with
  | write pid bs =>
      obtain ⟨p, -, hs⟩ := Option.bind_eq_some_iff.mp hs
      split at hs
      · cases hs
        exact ⟨rfl, rfl, rfl⟩
      · cases hs
  | close pid =>
      obtain ⟨p, -, hs⟩ := Option.bind_eq_some_iff.mp hs
      cases hs
      exact ⟨rfl, rfl, rfl⟩
  | exit pid st =>
      obtain ⟨p, -, hs⟩ := Option.bind_eq_some_iff.mp hs
      split at hs
      · cases hs
        exact ⟨rfl, rfl, rfl⟩
      · cases hs
  | sigchld =>
      cases hs
      exact ⟨rfl, rfl, rfl⟩
  | stray pid =>
      simp only [Sys.step] at hs
      split at hs
      · cases hs
        exact ⟨rfl, rfl, rfl⟩
      · cases hs
  | _ => exact hl.elim

/-! ### What a step does -/

section
variable {s s' : Sys J}

/-- What a successful `fork` does. -/
theorem fork_eq_some {pid : Pid} {now : Int} (hs : s.step (.fork pid now) = some s') :
    ∃ item todo, s.pc = .loop ∧ s.todo = item :: todo ∧
      s.runner.nrunning < s.runner.maxchildren ∧ s.findProc pid = none ∧
      s' = s.beginJob item todo pid now := by
  simp only [Sys.step] at hs
  split at hs
  next item todo hpc htodo =>
    split at hs
    case isTrue hg =>
      cases hs
      exact ⟨item, todo, hpc, htodo, hg.1, Option.isNone_iff_eq_none.mp hg.2, rfl⟩
    · cases hs
  · cases hs

theorem forkFails_eq_some (hs : s.step .forkFails = some s') :
    ∃ item todo, s.pc = .loop ∧ s.todo = item :: todo ∧
      s.runner.nrunning < s.runner.maxchildren ∧ s' = { s with
        runner := s.runner.dispatch (.beginJob ⟨s.runner.nextId, item⟩), pc := .exited } := by
  simp only [Sys.step] at hs
  split at hs
  next item todo hpc htodo =>
    split at hs
    case isTrue hroom =>
      cases hs
      exact ⟨item, todo, hpc, htodo, hroom, rfl⟩
    · cases hs
  · cases hs

theorem poll_eq_some {start : Int} {o : PollOutcome} (hs : s.step (.poll start o) = some s') :
    ∃ nz, s.pc = .poll nz ∧ s.pollStep nz start o = some s' := by
  simp only [Sys.step] at hs
  split at hs
  next nz hpc =>
    exact ⟨nz, hpc, hs⟩
  · cases hs

/-- What the return of `poll()` does: an assertion fires, the loop goes on, a signal was caught,
some deadlines are over, or some descriptors are ready. -/
theorem pollStep_cases {nz : Nat} {start : Int} {o : PollOutcome}
    (hs : s.pollStep nz start o = some s') :
    ((s.runner.polled.length ≠ s.runner.nrunning ∨ s.runner.polled.length = 0) ∧
        s' = { s with pc := .aborted }) ∨
      (s.runner.polled.length = s.runner.nrunning ∧ s.runner.polled.length ≠ 0 ∧
        (s' = { s with pc := .loop } ∨
        (∃ nz', o = .eintr ∧ s.caughtSigchld = true ∧
          s' = { s with caughtSigchld := false, pc := .reapAny nz' 0 }) ∨
        (∃ nz' now, o = .timedOut now ∧ s' = { s with
          runner := { (handleTimeouts now s.runner s.runner.children).1 with
            children := (handleTimeouts now s.runner s.runner.children).2 }
          pc := .poll nz' }) ∨
        ∃ nz', o = .ready ∧
          s' = { s with pc := .input nz' 0 (s.runner.polled.map s.revents) 0 })) := by
  simp only [Sys.pollStep] at hs
  split at hs
  case isTrue hassert =>
    cases hs
    exact .inl ⟨hassert, rfl⟩
  case isFalse hassert =>
    obtain ⟨hlen, hpos⟩ := not_or.mp hassert
    refine .inr ⟨not_not.mp hlen, hpos, ?_⟩
    cases o with
    | error =>
        cases hs
        exact .inl rfl
    | eintr =>
        simp only at hs
        split at hs
        case isTrue hcaught =>
          cases hs
          exact .inr (.inl ⟨_, rfl, hcaught, rfl⟩)
        · cases hs
          exact .inl rfl
    | timedOut now =>
        simp only at hs
        split at hs
        · cases hs
        · cases hs
          exact .inr (.inr (.inl ⟨_, now, rfl, rfl⟩))
    | ready =>
        simp only at hs
        split at hs
        · cases hs
          exact .inr (.inr (.inr ⟨_, rfl, rfl⟩))
        · cases hs

/-- What `waitpid` returning an exited process does: which call of `reap_children` it was, and what
`reap_children` did with it. -/
theorem waitedStep_cases {pid : Pid} (hs : s.waitedStep pid = some s') :
    ∃ p st, s.findProc pid = some p ∧ p.status = some st ∧
      ((∃ nz num, s.pc = .reapAny nz num ∧ s' = { s.reap p st with
          pc := .reapAny nz (num + if s.runner.counts pid st then 1 else 0) }) ∨
        ((s.pc = .reapPid pid ∨ s.pc = .reapRest) ∧ s' = { s.reap p st with pc := s.pc })) := by
  obtain ⟨p, hp, hs⟩ := Option.bind_eq_some_iff.mp hs
  obtain ⟨st, hst, hs⟩ := Option.bind_eq_some_iff.mp hs
  refine ⟨p, st, hp, hst, ?_⟩
  split at hs
  next nz num hpc =>
    cases hs
    exact Or.inl ⟨nz, num, hpc, rfl⟩
  next reqpid hpc =>
    split at hs
    case isTrue he =>
      cases hs
      exact Or.inr ⟨Or.inl (he ▸ hpc), rfl⟩
    · cases hs
  next hpc =>
    cases hs
    exact Or.inr ⟨Or.inr hpc, rfl⟩
  · cases hs

/-- Each call of `reap_children` ends when `waitpid` has no process to give back. -/
theorem waitOver_cases (hs : s.step .waitNone = some s' ∨ s.step .waitError = some s') :
    (∃ nz num, s.pc = .reapAny nz num ∧ s' = s.endRound nz num) ∨
      (∃ pid, s.pc = .reapPid pid ∧ s' = { s with pc := .reapFinished }) ∨
      (s.pc = .reapRest ∧ s' = s.finish) := by
  rcases hs with hs | hs
  · simp only [Sys.step] at hs
    split at hs
    next nz num hpc =>
      split at hs <;> cases hs
      exact .inl ⟨nz, num, hpc, rfl⟩
    next pid hpc =>
      split at hs <;> cases hs
      exact .inr (.inl ⟨pid, hpc, rfl⟩)
    next hpc =>
      split at hs <;> cases hs
      exact .inr (.inr ⟨hpc, rfl⟩)
    · cases hs
  · simp only [Sys.step] at hs
    split at hs
    next nz num hpc =>
      cases hs
      exact .inl ⟨nz, num, hpc, rfl⟩
    next pid hpc =>
      cases hs
      exact .inr (.inl ⟨pid, hpc, rfl⟩)
    next hpc =>
      cases hs
      exact .inr (.inr ⟨hpc, rfl⟩)
    · cases hs

/-- A process that has stopped changes nothing. -/
theorem waitStopped_eq (hs : s.step .waitStopped = some s') : s' = s := by
  simp only [Sys.step] at hs
  split at hs
  all_goals cases hs
  all_goals rfl

/-- What the parent does between its calls: from the loop of `run_tests`, from the loop over
`children_`, and from that over the finished ones. -/
theorem tau_cases (hs : s.step .tau = some s') :
    (s.pc = .loop ∧ ¬ (s.runner.nrunning < s.runner.maxchildren ∧ s.todo ≠ []) ∧
        ((s.runner.nrunning = 0 ∧ s.runner.children ≠ [] ∧
          s' = { s with caughtSigchld := false, pc := .reapRest }) ∨
        (s.runner.nrunning = 0 ∧ s.runner.children = [] ∧ s' = s.finish) ∨
        (s.runner.nrunning ≠ 0 ∧ s' = { s with pc := .poll 0 }))) ∨
      (∃ nz i pfd nf, s.pc = .input nz i pfd nf ∧ s.inputStep nz i pfd nf = some s') ∨
      (s.pc = .reapFinished ∧
        ((s.runner.findFinishedChild = none ∧ s' = { s with pc := .loop }) ∨
        ∃ c, s.runner.findFinishedChild = some c ∧
          s' = { s with caughtSigchld := false, pc := .reapPid c.pid })) := by
  simp only [Sys.step] at hs
  split at hs
  next hpc =>
    split at hs
    · cases hs
    case isFalse hroom =>
      refine .inl ⟨hpc, hroom, ?_⟩
      split at hs
      case isTrue hzero =>
        split at hs
        case isTrue hchildren =>
          cases hs
          exact .inl ⟨hzero, hchildren, rfl⟩
        case isFalse hchildren =>
          cases hs
          exact .inr (.inl ⟨hzero, not_not.mp hchildren, rfl⟩)
      case isFalse hzero =>
        cases hs
        exact .inr (.inr ⟨hzero, rfl⟩)
  next nz i pfd nf hpc =>
    exact .inr (.inl ⟨nz, i, pfd, nf, hpc, hs⟩)
  next hpc =>
    refine .inr (.inr ⟨hpc, ?_⟩)
    split at hs
    next hfind =>
      cases hs
      exact .inl ⟨hfind, rfl⟩
    next c hfind =>
      cases hs
      exact .inr ⟨c, hfind, rfl⟩
  · cases hs

end

end NovaProva
