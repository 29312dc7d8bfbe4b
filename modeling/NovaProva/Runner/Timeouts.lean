import NovaProva.Runner.Effects

/-!
# Runner — Timeouts

When `wait()` sends signals to its children.  One timeout of `poll()` is that of all children, and
`handle_timeout` is called for each of them: for a running child it looks at the child's deadline,
for one that was sent `SIGTERM` it does not.  So `SIGKILL` comes too early when `poll()` times out
for the sake of another child.

* `Incident`: what happens to the children, by the ids of their jobs, and when.
* `Incident.Allowed`: the incidents that may follow others.
* `killsInTime`: no child that was sent `SIGTERM` has time left when `poll()` times out.
* `Incident.Timely`: the same, but for the number that is reported of a child that timed out, which
  may be above that of `R_FAIL`.
* `timeouts_in_time`: in every run whose steps are so, every incident is timely; and if no child
  says that its test ended with a number above `R_FAIL`, it may follow those before it.
-/

namespace NovaProva

variable {J : Type}

/-- What happens to the child that runs a job. -/
inductive Incident where
  /-- it is forked, and this is its deadline -/
  | forked (id : Nat) (deadline : Int)
  /-- `EV_TIMEOUT` is raised for it -/
  | raised (id : Nat) (time : Int)
  /-- a signal is sent to it; no id if the pid is no child's -/
  | sent (id : Option Nat) (sig : Signal) (time : Int)
  /-- its result is reported -/
  | ended (id : Nat) (res : Result)
  deriving DecidableEq

namespace Incident

/-- The job that something happens to. -/
def id? : Incident → Option Nat
  | forked id _ => some id
  | raised id _ => some id
  | sent id _ _ => id
  | ended id _  => some id

/-- When an incident may follow others. -/
def Allowed (pre : List Incident) : Incident → Prop
  | forked id _ => ∀ d, forked id d ∉ pre
  | raised id t => (∃ d, forked id d ∈ pre ∧ d ≤ t) ∧ ∀ res, ended id res ∉ pre
  | sent none _ _ => False
  | sent (some id) .sigterm t =>
      (∃ d, forked id d ∈ pre ∧ d ≤ t) ∧ ∀ t', sent (some id) .sigterm t' ∉ pre
  | sent (some id) .sigkill t =>
      (∃ t', sent (some id) .sigterm t' ∈ pre ∧ t' + 3 * nanosecPerSec ≤ t) ∧
        ∀ t', sent (some id) .sigkill t' ∉ pre
  | ended id res => (∃ t, raised id t ∈ pre) → res = .fail

/-- When an incident may follow others, whatever numbers the children send for results. -/
def Timely (pre : List Incident) : Incident → Prop
  | ended id res => (∃ t, raised id t ∈ pre) → Result.fail.code ≤ res.code
  | n            => n.Allowed pre

/-- A timely incident is allowed if the result it reports, if any, is one that has a name. -/
theorem Timely.allowed {pre : List Incident} {n : Incident} (h : n.Timely pre)
    (hnamed : ∀ id res, n = ended id res → res.IsNamed) : n.Allowed pre := by
  cases n with
  | forked id d => exact h
  | raised id t => exact h
  | sent id sig t => exact h
  | ended id res => exact fun ht => (hnamed id res rfl).eq_fail (h ht)

/-- The result reported by a call. -/
def ofEnd : Callback J → Option Incident
  | .endJob j res => some (.ended j.id res)
  | _             => none

/-- The time-out reported by a call made after the clock reading `now`. -/
def ofTimeout (now : Int) : Callback J → Option Incident
  | .addEvent j ev => if ev.which = .timeout then some (.raised j.id now) else none
  | _              => none

/-- The time-outs reported in a step. -/
def timeouts (calls : List (Callback J)) : Label → List Incident
  | .poll _ (.timedOut now) => calls.filterMap (ofTimeout now)
  | _                       => []

/-- A signal sent by a runner with these children. -/
def ofKill (children : List (Child J)) (k : Kill) : Incident :=
  .sent ((children.find? fun c => c.pid = k.pid).map fun c => c.job.id) k.sig k.time

end Incident

/-- What happens in a step: the new children, the new calls and the new signals. -/
def Sys.incidents (s : Sys J) (l : Label) (t : Sys J) : List Incident :=
  let calls := t.runner.calls.drop s.runner.calls.length
  (t.runner.children.drop s.runner.children.length).map
      (fun c => .forked c.job.id c.deadline) ++
    Incident.timeouts calls l ++
    (t.runner.kills.drop s.runner.kills.length).map (Incident.ofKill s.runner.children) ++
    calls.filterMap Incident.ofEnd

/-- When `poll()` times out, no child that was sent `SIGTERM` has time left. -/
def killsInTime (s : Sys J) : Label → Bool
  | .poll _ (.timedOut now) =>
      s.runner.children.all fun c => c.state ≠ .timeout1 || c.deadline ≤ now
  | _ => true

/-! ### The incidents of a step -/

section
variable {s s' : Sys J} {l : Label} {children : List (Child J)} {calls : List (Callback J)}
  {kills : List Kill}

theorem incidents_of_changes (h : Changes s s' children calls kills) :
    s.incidents l s' =
      (children.drop s.runner.children.length).map (fun c => .forked c.job.id c.deadline) ++
        Incident.timeouts calls l ++
        kills.map (Incident.ofKill s.runner.children) ++ calls.filterMap Incident.ofEnd := by
  simp only [Sys.incidents, h.children, h.calls, h.kills, List.drop_left]

/-- A step that starts no child, ends no job, raises no time-out and sends no signal. -/
theorem incidents_eq_nil (h : Changes s s' children calls [])
    (hlen : children.length = s.runner.children.length)
    (htimeouts : Incident.timeouts calls l = [])
    (hends : calls.filterMap Incident.ofEnd = []) : s.incidents l s' = [] := by
  rw [incidents_of_changes h, htimeouts, hends, ← hlen, List.drop_length]
  rfl

theorem Child.ofEnd_reapCalls (c : Child J) (st : Status) :
    (c.reapCalls st).filterMap Incident.ofEnd = [.ended c.job.id (c.reapResult st)] := by
  rw [Child.reapCalls]
  cases exitEvent c.pid st <;> rfl

/-- The time-out of a child, and the signal to it. -/
def Child.raisedAt (now : Int) (c : Child J) : Option Incident :=
  (c.timeoutCall now).bind (Incident.ofTimeout now)

/-- The signal that a child is sent when the time is looked at. -/
def Child.sentAt (now : Int) (children : List (Child J)) (c : Child J) : Option Incident :=
  (c.timeoutKill now).map (Incident.ofKill children)

theorem Child.raisedAt_eq_some {now : Int} {c : Child J} {n : Incident} :
    c.raisedAt now = some n ↔ c.state = .running ∧ c.deadline ≤ now ∧ n = .raised c.job.id now := by
  obtain ⟨pid, j, res, st, d⟩ := c
  cases st with
  | running =>
      by_cases hd : d ≤ now
      · simp [Child.raisedAt, Child.timeoutCall, hd, Incident.ofTimeout, timeoutEvent, eq_comm]
      · simp [Child.raisedAt, Child.timeoutCall, hd]
  | timeout1 => simp [Child.raisedAt, Child.timeoutCall]
  | timeout2 => simp [Child.raisedAt, Child.timeoutCall]
  | finished => simp [Child.raisedAt, Child.timeoutCall]

/-- The pid finds the child. -/
theorem Wf.find_pid (h : Wf s) {c : Child J} (hc : c ∈ s.runner.children) :
    s.runner.children.find? (fun d => d.pid = c.pid) = some c := by
  cases hf : s.runner.children.find? (fun d => d.pid = c.pid) with
  | none =>
      have hne : ¬ c.pid = c.pid := by simpa using List.find?_eq_none.mp hf c hc
      exact absurd rfl hne
  | some d =>
      have hpid : d.pid = c.pid := by simpa using List.find?_some hf
      rw [h.eq_of_pid (List.mem_of_find?_eq_some hf) hc hpid]

theorem Wf.sentAt_eq_some (h : Wf s) {now : Int} {c : Child J} (hc : c ∈ s.runner.children)
    {n : Incident} :
    c.sentAt now s.runner.children = some n ↔
      (c.state = .running ∧ c.deadline ≤ now ∧ n = .sent (some c.job.id) .sigterm now) ∨
      (c.state = .timeout1 ∧ n = .sent (some c.job.id) .sigkill now) := by
  have hkill : ∀ sig, Incident.ofKill s.runner.children ⟨c.pid, sig, now⟩ =
      .sent (some c.job.id) sig now := by
    intro sig
    rw [Incident.ofKill, h.find_pid hc, Option.map_some]
  rw [Child.sentAt, Child.timeoutKill]
  cases hst : c.state with
  | running =>
      by_cases hd : c.deadline ≤ now
      · simp [hd, hkill, eq_comm]
      · simp [hd]
  | timeout1 => simp [hkill, eq_comm]
  | timeout2 => simp
  | finished => simp

/-- The incidents of a `poll()` that times out. -/
def Sys.timeoutIncidents (s : Sys J) (now : Int) : List Incident :=
  s.runner.children.filterMap (Child.raisedAt now) ++
    s.runner.children.filterMap (Child.sentAt now s.runner.children)

/-- No job is ended by a `poll()` that times out. -/
theorem filterMap_ofEnd_timeoutCall (now : Int) (cs : List (Child J)) :
    (cs.filterMap (Child.timeoutCall now)).filterMap Incident.ofEnd = [] := by
  rw [List.filterMap_filterMap, List.filterMap_eq_nil_iff]
  intro c _
  obtain ⟨pid, j, res, st, d⟩ := c
  cases st with
  | running =>
      by_cases hd : d ≤ now
      · simp [Child.timeoutCall, hd, Incident.ofEnd]
      · simp [Child.timeoutCall, hd]
  | timeout1 => rfl
  | timeout2 => rfl
  | finished => rfl

theorem incidents_timesOut {start now : Int}
    (h : Changes s s' (s.runner.children.map (Child.timedOut now))
      (s.runner.children.filterMap (Child.timeoutCall now))
      (s.runner.children.filterMap (Child.timeoutKill now))) :
    s.incidents (.poll start (.timedOut now)) s' = s.timeoutIncidents now := by
  rw [incidents_of_changes h, filterMap_ofEnd_timeoutCall, List.drop_eq_nil_of_le (by simp),
    Incident.timeouts,
    List.filterMap_filterMap, List.map_filterMap, List.map_nil, List.nil_append, List.append_nil]
  rfl

end

/-! ### The invariant -/

/-- What has happened to a child, by its state. -/
structure ChildLog (h : List Incident) (c : Child J) : Prop where
  running : c.state = .running →
    .forked c.job.id c.deadline ∈ h ∧ ∀ sig t, .sent (some c.job.id) sig t ∉ h
  timeout1 : c.state = .timeout1 →
    (∃ t, .sent (some c.job.id) .sigterm t ∈ h ∧ c.deadline = t + 3 * nanosecPerSec) ∧
      ∀ t, .sent (some c.job.id) .sigkill t ∉ h
  failed : ∀ t, .raised c.job.id t ∈ h → Result.fail.code ≤ c.result.code
  notEnded : ∀ res, .ended c.job.id res ∉ h

/-- The invariant of the runs whose incidents are kept. -/
structure Logged (x : Sys J × List Incident) : Prop where
  wf : Wf x.1
  timely : Each Incident.Timely x.2
  lt : ∀ n ∈ x.2, ∀ id ∈ n.id?, id < x.1.runner.nextId
  child : ∀ c ∈ x.1.runner.children, ChildLog x.2 c

theorem logged_start {r : Runner J} (hc : r.children = []) (plan : List J) :
    Logged (Sys.start r plan, []) where
  wf := wf_start hc plan
  timely := each_nil _
  lt := nofun
  child := by
    intro c hmem
    rw [show (Sys.start r plan).runner.children = [] from hc] at hmem
    cases hmem

section
variable {s s' : Sys J} {h : List Incident}

theorem ChildLog.follows {c c' : Child J} (hlog : ChildLog h c) (hf : c.Follows c') :
    ChildLog h c' := by
  have hstate : ∀ st, st ≠ .finished → c'.state = st → c.state = st := by
    intro st hne hst
    rcases hf.state with hfin | hsame
    · exact absurd (hst.symm.trans hfin) hne
    · exact hsame.symm.trans hst
  refine ⟨fun hst => ?_, fun hst => ?_, fun t ht => ?_, fun res => ?_⟩
  · rw [hf.job, hf.deadline]
    exact hlog.running (hstate _ (by decide) hst)
  · rw [hf.job, hf.deadline]
    exact hlog.timeout1 (hstate _ (by decide) hst)
  · rw [hf.job] at ht
    exact (hlog.failed t ht).trans hf.result
  · rw [hf.job]
    exact hlog.notEnded res

/-- Incidents of other children. -/
theorem ChildLog.append {c : Child J} (hlog : ChildLog h c) {ns : List Incident}
    (hns : ∀ n ∈ ns, n.id? ≠ some c.job.id) : ChildLog (h ++ ns) c := by
  have hsent : ∀ sig t, Incident.sent (some c.job.id) sig t ∉ ns := fun sig t hmem => hns _ hmem rfl
  refine ⟨fun hst => ?_, fun hst => ?_, fun t ht => ?_, fun res hmem => ?_⟩
  · obtain ⟨hfork, hnone⟩ := hlog.running hst
    refine ⟨List.mem_append_left _ hfork, fun sig t hmem => ?_⟩
    exact (List.mem_append.mp hmem).elim (hnone sig t) (hsent sig t)
  · obtain ⟨⟨t, ht, hd⟩, hnone⟩ := hlog.timeout1 hst
    refine ⟨⟨t, List.mem_append_left _ ht, hd⟩, fun t hmem => ?_⟩
    exact (List.mem_append.mp hmem).elim (hnone t) (hsent _ t)
  · exact (List.mem_append.mp ht).elim (hlog.failed t) fun hmem => absurd rfl (hns _ hmem)
  · exact (List.mem_append.mp hmem).elim (hlog.notEnded res) fun hmem => hns _ hmem rfl

/-- A step in which nothing happens to a child but that it is read. -/
theorem Logged.of_follows (hx : Logged (s, h)) (hw : Wf s')
    (hid : s'.runner.nextId = s.runner.nextId)
    (hch : ∀ c' ∈ s'.runner.children, ∃ c ∈ s.runner.children, c.Follows c') :
    Logged (s', h ++ []) := by
  rw [List.append_nil]
  refine ⟨hw, hx.timely, ?_, fun c' hc' => ?_⟩
  · rw [hid]
    exact hx.lt
  · obtain ⟨c, hc, hf⟩ := hch c' hc'
    exact (hx.child c hc).follows hf

/-- A child is forked, with a new id. -/
theorem Logged.begins (hx : Logged (s, h)) (hw : Wf s') {c : Child J}
    (hid : s'.runner.nextId = s.runner.nextId + 1) (hjob : c.job.id = s.runner.nextId)
    (hst : c.state = .running)
    (hch : s'.runner.children = s.runner.children ++ [c]) :
    Logged (s', h ++ [.forked c.job.id c.deadline]) := by
  -- nothing has happened under this id
  have hnew : ∀ n ∈ h, n.id? ≠ some c.job.id := by
    intro n hn he
    have hlt : c.job.id < s.runner.nextId := hx.lt n hn _ he
    omega
  refine ⟨hw, hx.timely.append (each_singleton ?_), ?_, ?_⟩
  · rw [List.append_nil]
    exact fun d hmem => hnew _ hmem rfl
  · intro n hn id hmem
    rw [hid]
    rcases List.mem_append.mp hn with hn | hn
    · exact Nat.lt_succ_of_lt (hx.lt n hn id hmem)
    · obtain rfl := List.mem_singleton.mp hn
      cases hmem
      omega
  · intro d hd
    rw [hch] at hd
    rcases List.mem_append.mp hd with hd | hd
    · refine (hx.child d hd).append fun n hn => ?_
      obtain rfl := List.mem_singleton.mp hn
      have hlt : d.job.id < s.runner.nextId := hx.wf.lt d hd
      intro he
      have he : c.job.id = d.job.id := Option.some.inj he
      omega
    · obtain rfl := List.mem_singleton.mp hd
      have hnone : ∀ n : Incident, n ∈ h ++ [.forked d.job.id d.deadline] →
          n.id? = some d.job.id → n = .forked d.job.id d.deadline := by
        intro n hn he
        rcases List.mem_append.mp hn with hn | hn
        · exact absurd he (hnew n hn)
        · exact List.mem_singleton.mp hn
      refine ⟨fun _ => ⟨by simp, fun sig t hmem => ?_⟩, fun h1 => ?_, fun t hmem => ?_,
        fun res hmem => ?_⟩
      · cases hnone _ hmem rfl
      · cases hst.symm.trans h1
      · cases hnone _ hmem rfl
      · cases hnone _ hmem rfl

/-- A child is waited for and its result reported. -/
theorem Logged.reaps (hx : Logged (s, h)) (hw : Wf s') {c : Child J} {as bs : List (Child J)}
    (hid : s'.runner.nextId = s.runner.nextId) (hsplit : s.runner.children = as ++ c :: bs)
    (hch : s'.runner.children = as ++ bs) (st : Status) :
    Logged (s', h ++ [.ended c.job.id (c.reapResult st)]) := by
  have hc : c ∈ s.runner.children := by
    rw [hsplit]
    exact List.mem_append_right _ List.mem_cons_self
  refine ⟨hw, hx.timely.append (each_singleton ?_), ?_, ?_⟩
  · rw [List.append_nil]
    rintro ⟨t, ht⟩
    have hmerged : c.result.code ≤ (c.reapResult st).code :=
      (Result.le_code_merge ..).trans (Result.le_code_merge ..)
    exact ((hx.child c hc).failed t ht).trans hmerged
  · intro n hn id hmem
    rw [hid]
    rcases List.mem_append.mp hn with hn | hn
    · exact hx.lt n hn id hmem
    · obtain rfl := List.mem_singleton.mp hn
      cases hmem
      exact hx.wf.lt c hc
  · intro d hd
    rw [hch] at hd
    obtain ⟨hd', hne⟩ := hx.wf.of_split hsplit hd
    refine (hx.child d hd').append fun n hn => ?_
    obtain rfl := List.mem_singleton.mp hn
    exact fun he => hne (Option.some.inj he).symm

/-- The incidents of a `poll()` that times out are those of children. -/
theorem Wf.mem_timeoutIncidents (hw : Wf s) {now : Int} {n : Incident}
    (hn : n ∈ s.timeoutIncidents now) : ∃ c ∈ s.runner.children,
      (c.state = .running ∧ c.deadline ≤ now ∧
        (n = .raised c.job.id now ∨ n = .sent (some c.job.id) .sigterm now)) ∨
      (c.state = .timeout1 ∧ n = .sent (some c.job.id) .sigkill now) := by
  rcases List.mem_append.mp hn with hn | hn
  · obtain ⟨c, hc, he⟩ := List.mem_filterMap.mp hn
    obtain ⟨hst, hd, rfl⟩ := Child.raisedAt_eq_some.mp he
    exact ⟨c, hc, .inl ⟨hst, hd, .inl rfl⟩⟩
  · obtain ⟨c, hc, he⟩ := List.mem_filterMap.mp hn
    rcases (hw.sentAt_eq_some hc).mp he with ⟨hst, hd, rfl⟩ | ⟨hst, rfl⟩
    · exact ⟨c, hc, .inl ⟨hst, hd, .inr rfl⟩⟩
    · exact ⟨c, hc, .inr ⟨hst, rfl⟩⟩

/-- Those under a child's id are its own. -/
theorem Wf.timeoutIncidents_self (hw : Wf s) {now : Int} {n : Incident} {c : Child J}
    (hc : c ∈ s.runner.children) (hid : n.id? = some c.job.id)
    (hn : n ∈ s.timeoutIncidents now) :
    (c.state = .running ∧ c.deadline ≤ now ∧
        (n = .raised c.job.id now ∨ n = .sent (some c.job.id) .sigterm now)) ∨
      (c.state = .timeout1 ∧ n = .sent (some c.job.id) .sigkill now) := by
  obtain ⟨d, hd, hor⟩ := hw.mem_timeoutIncidents hn
  have hd' : n.id? = some d.job.id := by
    rcases hor with ⟨-, -, rfl | rfl⟩ | ⟨-, rfl⟩ <;> rfl
  rw [hw.eq_of_id hc hd (Option.some.inj (hid.symm.trans hd'))]
  exact hor

/-- What a `poll()` that times out adds is timely, if no `SIGKILL` comes too early. -/
theorem Logged.timesOut_timely (hx : Logged (s, h)) {now : Int}
    (hP : ∀ c ∈ s.runner.children, c.state = .timeout1 → c.deadline ≤ now) :
    Each Incident.Timely (h ++ s.timeoutIncidents now) := by
  have hw := hx.wf
  rw [Sys.timeoutIncidents, ← List.append_assoc]
  refine (hx.timely.append (each_filterMap ?_)).append (each_filterMap ?_)
  · intro bs c cs n hsplit hn
    obtain ⟨hst, hd, rfl⟩ := Child.raisedAt_eq_some.mp hn
    have hlog := hx.child c (by rw [hsplit]; exact List.mem_append_right _ List.mem_cons_self)
    refine ⟨⟨c.deadline, List.mem_append_left _ (hlog.running hst).1, hd⟩, fun res hmem => ?_⟩
    rcases List.mem_append.mp hmem with hmem | hmem
    · exact hlog.notEnded res hmem
    · obtain ⟨b, -, he⟩ := List.mem_filterMap.mp hmem
      obtain ⟨-, -, he⟩ := Child.raisedAt_eq_some.mp he
      cases he
  · intro bs c cs n hsplit hn
    have hc : c ∈ s.runner.children := by
      rw [hsplit]
      exact List.mem_append_right _ List.mem_cons_self
    -- no child before this one has its id, so that the signals sent to it are in the history
    have hsent : ∀ sig t, (∀ t, Incident.sent (some c.job.id) sig t ∉ h) →
        Incident.sent (some c.job.id) sig t ∉
          h ++ s.runner.children.filterMap (Child.raisedAt now) ++
            bs.filterMap (Child.sentAt now s.runner.children) := by
      intro sig t hnone hmem
      rcases List.mem_append.mp hmem with hmem | hmem
      · rcases List.mem_append.mp hmem with hmem | hmem
        · exact hnone t hmem
        · obtain ⟨b, -, he⟩ := List.mem_filterMap.mp hmem
          obtain ⟨-, -, he⟩ := Child.raisedAt_eq_some.mp he
          cases he
      · obtain ⟨b, hb, he⟩ := List.mem_filterMap.mp hmem
        have hb' : b ∈ s.runner.children := by
          rw [hsplit]
          exact List.mem_append_left _ hb
        have hid : b.job.id = c.job.id := by
          rcases (hw.sentAt_eq_some hb').mp he with ⟨-, -, he⟩ | ⟨-, he⟩
          · exact (Option.some.inj (Incident.sent.inj he).1).symm
          · exact (Option.some.inj (Incident.sent.inj he).1).symm
        have hids := hw.ids
        rw [hsplit, List.map_append, List.map_cons, List.nodup_append] at hids
        exact hids.2.2 _ (List.mem_map_of_mem hb) _ List.mem_cons_self hid
    have hlog := hx.child c hc
    rcases (hw.sentAt_eq_some hc).mp hn with ⟨hst, hd, rfl⟩ | ⟨hst, rfl⟩
    · obtain ⟨hfork, hnone⟩ := hlog.running hst
      refine ⟨⟨c.deadline, ?_, hd⟩, fun t => hsent _ t (hnone _)⟩
      exact List.mem_append_left _ (List.mem_append_left _ hfork)
    · obtain ⟨⟨t, ht, hd⟩, hnone⟩ := hlog.timeout1 hst
      have hle := hP c hc hst
      refine ⟨⟨t, ?_, by rw [← hd]; exact hle⟩, fun t' => hsent _ t' hnone⟩
      exact List.mem_append_left _ (List.mem_append_left _ ht)

/-- A child whose `handle_timeout` does nothing. -/
theorem Logged.timesOut_same (hx : Logged (s, h)) {now : Int} {c : Child J}
    (hc : c ∈ s.runner.children) (hst : ¬ (c.state = .running ∧ c.deadline ≤ now))
    (hst' : c.state ≠ .timeout1) : ChildLog (h ++ s.timeoutIncidents now) c := by
  refine (hx.child c hc).append fun n hn hid => ?_
  rcases hx.wf.timeoutIncidents_self hc hid hn with ⟨hrun, hd, -⟩ | ⟨h1, -⟩
  · exact hst ⟨hrun, hd⟩
  · exact hst' h1

/-- What has happened to a child after a `poll()` that timed out. -/
theorem Logged.timesOut_child (hx : Logged (s, h)) {now : Int} {c : Child J}
    (hc : c ∈ s.runner.children) :
    ChildLog (h ++ s.timeoutIncidents now) (c.timedOut now) := by
  have hlog := hx.child c hc
  have hself : ∀ n : Incident, n.id? = some c.job.id → n ∈ s.timeoutIncidents now → _ :=
    fun n hid hn => hx.wf.timeoutIncidents_self hc hid hn
  have hended : ∀ res, Incident.ended c.job.id res ∉ h ++ s.timeoutIncidents now := by
    intro res hmem
    rcases List.mem_append.mp hmem with hmem | hmem
    · exact hlog.notEnded res hmem
    · rcases hself _ rfl hmem with ⟨-, -, he | he⟩ | ⟨-, he⟩ <;> cases he
  unfold Child.timedOut
  cases hst : c.state with
  | running =>
      dsimp only
      split
      case isTrue hd =>
        refine ⟨nofun, fun _ => ⟨⟨now, ?_, rfl⟩, fun t hmem => ?_⟩, fun _ _ => ?_, hended⟩
        · refine List.mem_append_right _ (List.mem_append_right _ (List.mem_filterMap.mpr ?_))
          exact ⟨c, hc, (hx.wf.sentAt_eq_some hc).mpr (.inl ⟨hst, hd, rfl⟩)⟩
        · rcases List.mem_append.mp hmem with hmem | hmem
          · exact (hlog.running hst).2 _ t hmem
          · rcases hself _ rfl hmem with ⟨-, -, he | he⟩ | ⟨h1, -⟩
            · cases he
            · cases he
            · cases hst.symm.trans h1
        · exact (Result.le_code_merge .fail c.result).trans_eq (congrArg _ (Result.merge_comm ..))
      case isFalse hd =>
        exact hx.timesOut_same hc (fun hrun => hd hrun.2) (by rw [hst]; decide)
  | timeout1 =>
      refine ⟨nofun, nofun, fun t hmem => ?_, hended⟩
      rcases List.mem_append.mp hmem with hmem | hmem
      · exact hlog.failed t hmem
      · rcases hself _ rfl hmem with ⟨hrun, -⟩ | ⟨-, he⟩
        · cases hst.symm.trans hrun
        · cases he
  | timeout2 => exact hx.timesOut_same hc (by rw [hst]; simp) (by rw [hst]; decide)
  | finished => exact hx.timesOut_same hc (by rw [hst]; simp) (by rw [hst]; decide)

theorem Logged.timesOut (hx : Logged (s, h)) (hw : Wf s') {now : Int}
    (hP : ∀ c ∈ s.runner.children, c.state = .timeout1 → c.deadline ≤ now)
    (hid : s'.runner.nextId = s.runner.nextId)
    (hch : s'.runner.children = s.runner.children.map (Child.timedOut now)) :
    Logged (s', h ++ s.timeoutIncidents now) := by
  refine ⟨hw, hx.timesOut_timely hP, fun n hn id hmem => ?_, fun c' hc' => ?_⟩
  · rw [hid]
    rcases List.mem_append.mp hn with hn | hn
    · exact hx.lt n hn id hmem
    · obtain ⟨c, hc, hor⟩ := hx.wf.mem_timeoutIncidents hn
      have hlt := hx.wf.lt c hc
      rcases hor with ⟨-, -, rfl | rfl⟩ | ⟨-, rfl⟩ <;> cases hmem <;> exact hlt
  · rw [hch] at hc'
    obtain ⟨c, hc, rfl⟩ := List.mem_map.mp hc'
    exact hx.timesOut_child hc

/-- **A step keeps the invariant** unless it sends `SIGKILL` too early. -/
theorem Logged.step (hx : Logged (s, h)) {l : Label} (hP : killsInTime s l = true)
    (hs : s.step l = some s') : Logged (s', h ++ s.incidents l s') := by
  have hw : Wf s' := hx.wf.step hs
  have hsame : s'.runner.children = s.runner.children →
      ∀ c ∈ s'.runner.children, ∃ d ∈ s.runner.children, d.Follows c := by
    intro hch c hc
    exact ⟨c, hch ▸ hc, ⟨rfl, rfl, .inr rfl, rfl, Nat.le_refl _⟩⟩
  cases step_effect hs with
  | quiet pc jobs hch =>
      have hnil : Incident.timeouts ([] : List (Callback J)) l = [] := by
        unfold Incident.timeouts
        split <;> rfl
      rw [incidents_eq_nil hch rfl hnil rfl]
      exact hx.of_follows hw jobs.1 (hsame hch.children)
  | @begins item todo pid now c label pc pc' room before after nextId job state result hch =>
      have hinc : s.incidents l s' = [.forked c.job.id c.deadline] := by
        rw [incidents_of_changes hch, List.drop_left, label]
        rfl
      rw [hinc]
      exact hx.begins hw nextId (congrArg Job.id job) state hch.children
  | @beginFails item pc pc' room jobs hch =>
      have hnil : Incident.timeouts [Callback.beginJob (⟨s.runner.nextId, item⟩ : Job J)] l =
          [] := by
        unfold Incident.timeouts
        split <;> rfl
      rw [incidents_eq_nil hch rfl hnil rfl]
      exact hx.of_follows hw jobs.1 (hsame hch.children)
  | @timesOut start now label pc pc' jobs hch =>
      subst label
      rw [incidents_timesOut hch]
      refine hx.timesOut hw (fun c hc hst => ?_) jobs.1 hch.children
      have hall := List.all_eq_true.mp hP c hc
      simpa [hst] using hall
  | @reads nz i nf pfd pfd' nf' c c' evs label pc pc' at_i unfinished follows named jobs hch =>
      subst label
      have hends : (evs.map (Callback.addEvent c.job)).filterMap Incident.ofEnd = [] := by
        rw [List.filterMap_map]
        exact List.filterMap_eq_nil_iff.mpr fun _ _ => rfl
      rw [incidents_eq_nil hch (List.length_set ..) rfl hends]
      refine hx.of_follows hw jobs.1 fun d hd => ?_
      rw [hch.children] at hd
      rcases List.mem_or_eq_of_mem_set hd with hd | rfl
      · exact ⟨d, hd, ⟨rfl, rfl, .inr rfl, rfl, Nat.le_refl _⟩⟩
      · exact ⟨c, List.mem_of_getElem? at_i, follows⟩
  | @reaps c st as bs label pc split jobs hch =>
      subst label
      have hinc : s.incidents (.waited c.pid) s' = [.ended c.job.id (c.reapResult st)] := by
        rw [incidents_of_changes hch, split, List.drop_eq_nil_of_le (by simp),
          Child.ofEnd_reapCalls]
        rfl
      rw [hinc]
      exact hx.reaps hw jobs.1 split hch.children st
  | finishes pc pc' jobs hch =>
      have hnil : Incident.timeouts [(Callback.finish : Callback J)] l = [] := by
        unfold Incident.timeouts
        split <;> rfl
      rw [incidents_eq_nil hch rfl hnil rfl]
      exact hx.of_follows hw jobs.1 (hsame hch.children)

end

/-! ### Numbers for results -/

/-- What is reported in a step is the result of a call of it. -/
theorem ended_mem_incidents {s s' : Sys J} {l : Label} {children : List (Child J)}
    {calls : List (Callback J)} {kills : List Kill} (h : Changes s s' children calls kills)
    {id : Nat} {res : Result} (hmem : .ended id res ∈ s.incidents l s') :
    .ended id res ∈ calls.filterMap Incident.ofEnd := by
  rw [incidents_of_changes h, List.mem_append, List.mem_append, List.mem_append] at hmem
  rcases hmem with ((hmem | hmem) | hmem) | hmem
  · obtain ⟨c, -, he⟩ := List.mem_map.mp hmem
    cases he
  · unfold Incident.timeouts at hmem
    split at hmem
    · obtain ⟨cb, -, he⟩ := List.mem_filterMap.mp hmem
      unfold Incident.ofTimeout at he
      split at he
      · split at he <;> cases he
      · cases he
    · cases hmem
  · obtain ⟨k, -, he⟩ := List.mem_map.mp hmem
    cases he
  · exact hmem

/-- The results of the children, and those that were reported, have names. -/
structure ResultsNamed (x : Sys J × List Incident) : Prop where
  children : ∀ c ∈ x.1.runner.children, c.result.IsNamed
  ended : ∀ id res, .ended id res ∈ x.2 → res.IsNamed

section
variable {s s' : Sys J} {h : List Incident} {l : Label}

theorem resultsNamed_start {r : Runner J} (hc : r.children = []) (plan : List J) :
    ResultsNamed (Sys.start r plan, []) where
  children := by
    intro c hmem
    rw [show (Sys.start r plan).runner.children = [] from hc] at hmem
    cases hmem
  ended := nofun

/-- A step that ends no job. -/
theorem ResultsNamed.quiet (hx : ResultsNamed (s, h)) {children : List (Child J)}
    {calls : List (Callback J)} {kills : List Kill} (hch : Changes s s' children calls kills)
    (hends : calls.filterMap Incident.ofEnd = [])
    (hnamed : ∀ c ∈ children, c.result.IsNamed) : ResultsNamed (s', h ++ s.incidents l s') where
  children := by
    rw [hch.children]
    exact hnamed
  ended := by
    intro id res hmem
    rcases List.mem_append.mp hmem with hmem | hmem
    · exact hx.ended id res hmem
    · have hcall := ended_mem_incidents hch hmem
      rw [hends] at hcall
      cases hcall

/-- A time-out merges `R_FAIL` with the result. -/
theorem Child.isNamed_timedOut {c : Child J} (h : c.result.IsNamed) (now : Int) :
    (c.timedOut now).result.IsNamed := by
  unfold Child.timedOut
  cases c.state with
  | running =>
      dsimp only
      split
      · exact h.merge (by decide)
      · exact h
  | timeout1 => exact h
  | timeout2 => exact h
  | finished => exact h

/-- What is merged with a child's result when it is waited for. -/
theorem isNamed_reapEvent (c : Child J) (st : Status) :
    ((exitEvent c.pid st).elim .unknown fun e => e.normalise.getResult).IsNamed := by
  cases exitEvent c.pid st with
  | none => decide
  | some e => exact Event.isNamed_getResult _

/-- Results keep to those that have names, in a step that reads no number above `R_FAIL`. -/
theorem ResultsNamed.step (hx : ResultsNamed (s, h)) (hR : sendsResults s l = true)
    (hs : s.step l = some s') : ResultsNamed (s', h ++ s.incidents l s') := by
  cases step_effect hs with
  | quiet pc jobs hch => exact hx.quiet hch rfl hx.children
  | begins label pc pc' room before after nextId job state result hch =>
      refine hx.quiet hch rfl fun c hc => ?_
      rcases List.mem_append.mp hc with hc | hc
      · exact hx.children c hc
      · rw [List.mem_singleton.mp hc, result]
        decide
  | beginFails pc pc' room jobs hch => exact hx.quiet hch rfl hx.children
  | timesOut label pc pc' jobs hch =>
      refine hx.quiet hch (filterMap_ofEnd_timeoutCall _ _) fun c hc => ?_
      obtain ⟨d, hd, rfl⟩ := List.mem_map.mp hc
      exact Child.isNamed_timedOut (hx.children d hd) _
  | reads label pc pc' at_i unfinished follows named jobs hch =>
      refine hx.quiet hch ?_ fun c hc => ?_
      · rw [List.filterMap_map]
        exact List.filterMap_eq_nil_iff.mpr fun _ _ => rfl
      · rcases List.mem_or_eq_of_mem_set hc with hc | rfl
        · exact hx.children c hc
        · exact named hR (hx.children _ (List.mem_of_getElem? at_i))
  | @reaps c st as bs label pc split jobs hch =>
      have hc : c ∈ s.runner.children := by
        rw [split]
        exact List.mem_append_right _ List.mem_cons_self
      refine ⟨fun d hd => ?_, fun id res hmem => ?_⟩
      · rw [hch.children] at hd
        refine hx.children d ?_
        rw [split]
        exact (List.sublist_cons_self c bs).append_left as |>.subset hd
      · rcases List.mem_append.mp hmem with hmem | hmem
        · exact hx.ended id res hmem
        · have hcall := ended_mem_incidents hch hmem
          rw [Child.ofEnd_reapCalls, List.mem_singleton] at hcall
          cases hcall
          exact ((hx.children c hc).merge (isNamed_reapEvent c st)).merge (by decide)
  | finishes pc pc' jobs hch => exact hx.quiet hch rfl hx.children

end

/-! ### Whole runs -/

/-- **Signals are sent in time**, in every run of `run_tests` in which no child that was sent
`SIGTERM` has time left when `poll()` times out: `SIGTERM` and `EV_TIMEOUT` not before the child's
deadline, `SIGKILL` not before three seconds after `SIGTERM`, each signal at most once, and a child
that timed out is not reported as anything better than failed.  It is reported as failed if no child
says that its test ended with a number above `R_FAIL`. -/
theorem timeouts_in_time {r : Runner J} (hc : r.children = []) (plan : List J) :
    (∀ s h, Run (withHistory Sys.step Sys.incidents) (fun x l => killsInTime x.1 l = true)
        (Sys.start r plan, []) (s, h) → Each Incident.Timely h) ∧
      ∀ s h, Run (withHistory Sys.step Sys.incidents)
        (fun x l => (killsInTime x.1 l && sendsResults x.1 l) = true)
        (Sys.start r plan, []) (s, h) → Each Incident.Allowed h := by
  have hlogged : ∀ s h, Run (withHistory Sys.step Sys.incidents)
      (fun x l => killsInTime x.1 l = true) (Sys.start r plan, []) (s, h) → Logged (s, h) := by
    intro s h hrun
    refine hrun.invariant (logged_start hc plan) fun x l y hx hkills hs => ?_
    obtain ⟨hs, hh⟩ := withHistory_eq_some.mp hs
    have hstep := hx.step hkills hs
    rwa [← hh] at hstep
  refine ⟨fun s h hrun => (hlogged s h hrun).timely, fun s h hrun => ?_⟩
  have hnamed : ResultsNamed (s, h) := by
    refine hrun.invariant (resultsNamed_start hc plan) fun x l y hx hP hs => ?_
    obtain ⟨hs, hh⟩ := withHistory_eq_some.mp hs
    have hstep := hx.step (Bool.and_eq_true_iff.mp hP).2 hs
    rwa [← hh] at hstep
  have htimely := (hlogged s h (hrun.mono fun x l hP => (Bool.and_eq_true_iff.mp hP).1)).timely
  intro pre n post heq
  refine (htimely pre n post heq).allowed fun id res hn => hnamed.ended id res ?_
  rw [show h = pre ++ n :: post from heq, ← hn]
  exact List.mem_append_right _ List.mem_cons_self

/-- The clock readings of a step. -/
def Label.readings : Label → List Int
  | .fork _ now                 => [now]
  | .poll start (.timedOut now) => [start, now]
  | .poll start _               => [start]
  | _                           => []

/-- One job whose child times out, is killed three seconds later, and is reaped. -/
theorem timeouts_in_time_one_job :
    ∃ (s : Sys Unit) (h : List Incident), s.pc = .done ∧
      .sent (some 1) .sigkill (33 * nanosecPerSec) ∈ h ∧ .ended 1 .fail ∈ h ∧
      Each Incident.Allowed h := by
  let ls : List Label := [.fork 100 0, .tau, .poll 0 (.timedOut (30 * nanosecPerSec)),
    .poll (30 * nanosecPerSec) (.timedOut (33 * nanosecPerSec)), .close 100,
    .exit 100 (.signaled 9), .poll (33 * nanosecPerSec) .ready, .tau, .tau, .tau, .waited 100,
    .waitNone, .tau, .tau]
  have hrun : (execute (withHistory Sys.step Sys.incidents)
      (fun x l => killsInTime x.1 l && sendsResults x.1 l)
      (Sys.start ({} : Runner Unit) [()], []) ls).any
      (fun x => x.1.pc = .done ∧ .sent (some 1) .sigkill (33 * nanosecPerSec) ∈ x.2 ∧
        .ended 1 .fail ∈ x.2) = true := by decide +kernel
  obtain ⟨⟨s, h⟩, hs, hd⟩ := Run.of_execute hrun
  obtain ⟨hpc, hkill, hend⟩ := of_decide_eq_true hd
  exact ⟨s, h, hpc, hkill, hend, (timeouts_in_time rfl [()]).2 s h hs⟩

/-- Of two children the second times out one second after the first, which is sent `SIGKILL` then
and not after three seconds. -/
theorem sigkill_before_follow_up_deadline :
    ¬ ∀ (r : Runner Unit) (plan : List Unit) (ls : List Label) (x : Sys Unit × List Incident),
      r.children = [] → (ls.flatMap Label.readings).Pairwise (· ≤ ·) →
      execute (withHistory Sys.step Sys.incidents) (fun _ _ => true) (Sys.start r plan, []) ls =
        some x → Each Incident.Allowed x.2 := by
  intro hall
  let ls : List Label := [.fork 100 0, .fork 101 nanosecPerSec, .tau,
    .poll nanosecPerSec (.timedOut (30 * nanosecPerSec)),
    .poll (30 * nanosecPerSec) (.timedOut (31 * nanosecPerSec))]
  have hrun : (execute (withHistory Sys.step Sys.incidents) (fun _ _ => true)
      (Sys.start { maxchildren := 2 } [(), ()], []) ls).map Prod.snd =
      some [.forked 1 30000000000, .forked 2 31000000000, .raised 1 30000000000,
        .sent (some 1) .sigterm 30000000000, .raised 2 31000000000,
        .sent (some 1) .sigkill 31000000000, .sent (some 2) .sigterm 31000000000] := by
    decide +kernel
  obtain ⟨x, hx, hh⟩ := Option.map_eq_some_iff.mp hrun
  have heach := hall _ _ ls x rfl (by decide) hx
  rw [hh] at heach
  obtain ⟨⟨t, ht, hle⟩, -⟩ := heach _ (.sent (some 1) .sigkill 31000000000) _
    (show _ = [_, _, _, _, _] ++ _ :: _ from rfl)
  simp only [List.mem_cons, Incident.sent.injEq, reduceCtorEq, List.not_mem_nil, or_false,
    false_or, true_and] at ht
  rw [ht, nanosecPerSec] at hle
  omega

end NovaProva
