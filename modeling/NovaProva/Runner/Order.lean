import NovaProva.Runner.Counts
import NovaProva.Runner.Effects
import Mathlib.Data.List.Forall2

/-!
# Runner — Order

What the listeners of `run_tests` are told, and in which order, in the runs in which `poll()` is
never interrupted by `SIGCHLD`, so that a child is seen finished before it is reaped.

* `Callback.Allowed`: a job is begun once, its events lie behind that, and it is ended once behind
  them.
* `IsBlock`: with one child at a time, all that is told of a job comes in one piece.
* `RoundsOrdered`: children that are seen finished in one round of `wait()` are reaped in the order
  they were started.
-/

namespace NovaProva

variable {J : Type}

/-- The jobs that were begun, in order. -/
def begunJobs (calls : List (Callback J)) : List (Job J) :=
  calls.filterMap fun | .beginJob j => some j | _ => none

@[simp] theorem begunJobs_append (cs ds : List (Callback J)) :
    begunJobs (cs ++ ds) = begunJobs cs ++ begunJobs ds := List.filterMap_append ..

theorem mem_begunJobs {j : Job J} {cs : List (Callback J)} :
    j ∈ begunJobs cs ↔ .beginJob j ∈ cs := by
  rw [begunJobs, List.mem_filterMap]
  constructor
  · rintro ⟨cb, hcb, he⟩
    cases cb <;> cases he
    exact hcb
  · intro h
    exact ⟨_, h, rfl⟩

/-- What may be told behind other calls of a `run_tests`. -/
def Callback.Allowed (pre : List (Callback J)) : Callback J → Prop
  | .begin => False
  | .finish => False
  | .beginJob j => ∀ k, .beginJob k ∈ pre → k.id ≠ j.id
  | .addEvent j _ => .beginJob j ∈ pre ∧ ∀ res, .endJob j res ∉ pre
  | .endJob j _ => .beginJob j ∈ pre ∧ ∀ res, .endJob j res ∉ pre

/-- The calls for a job in one piece. -/
def IsBlock (j : Job J) (cs : List (Callback J)) : Prop :=
  ∃ (evs : List Event) (res : Result), cs = .beginJob j :: evs.map (.addEvent j) ++ [.endJob j res]

/-- `poll()` is not interrupted by `SIGCHLD`. -/
def notInterrupted (s : Sys J) : Label → Bool
  | .poll _ .eintr => !s.caughtSigchld
  | _ => true

variable {r : Runner J} {plan : List J} {s s' : Sys J} {l : Label}

theorem Pc.ne_of_not_stopped {pc : Pc} (h : pc.stopped = false) : pc ≠ .done ∧ pc ≠ .exited := by
  constructor
  · rintro rfl
    cases h
  · rintro rfl
    cases h

/-! ### The calls of a run -/

/-- What `run_tests` on `r` has told its listeners behind `begin`. -/
structure Told (r : Runner J) (plan : List J) (s : Sys J) (cs : List (Callback J)) : Prop where
  calls : s.runner.calls =
    r.calls ++ .begin :: (cs ++ if s.pc = .done then [.finish] else [])
  allowed : Each Callback.Allowed cs
  begun : s.pc ≠ .exited →
    begunJobs cs ++ jobsFrom s.runner.nextId s.todo = jobsFrom r.nextId plan
  lt : s.pc ≠ .exited → ∀ j, .beginJob j ∈ cs → j.id < s.runner.nextId
  child : ∀ c ∈ s.runner.children, .beginJob c.job ∈ cs ∧ ∀ res, .endJob c.job res ∉ cs

theorem told_start (hc : r.children = []) (plan : List J) : Told r plan (Sys.start r plan) [] where
  calls := rfl
  allowed := each_nil _
  begun := fun _ => rfl
  lt := nofun
  child := by
    intro c hmem
    rw [show (Sys.start r plan).runner.children = [] from hc] at hmem
    cases hmem

/-- The calls of a step behind those of the run, while `run_tests` has not returned. -/
theorem Told.calls_append {cs new : List (Callback J)} (h : Told r plan s cs)
    (hpc : s.pc ≠ .done) (hpc' : s'.pc ≠ .done)
    (hnew : s'.runner.calls = s.runner.calls ++ new) :
    s'.runner.calls =
      r.calls ++ .begin :: ((cs ++ new) ++ if s'.pc = .done then [.finish] else []) := by
  rw [hnew, h.calls, if_neg hpc, if_neg hpc']
  simp

/-- Only events of children. -/
def EventsOf (children : List (Child J)) (new : List (Callback J)) : Prop :=
  ∀ cb ∈ new, ∃ c ∈ children, ∃ ev, cb = .addEvent c.job ev

theorem eventsOf_nil (children : List (Child J)) : EventsOf children [] :=
  fun _ h => absurd h List.not_mem_nil

theorem eventsOf_map {children : List (Child J)} {c : Child J} (hc : c ∈ children)
    (evs : List Event) : EventsOf children (evs.map (.addEvent c.job)) := by
  intro cb hcb
  obtain ⟨ev, -, rfl⟩ := List.mem_map.mp hcb
  exact ⟨c, hc, ev, rfl⟩

theorem EventsOf.begunJobs {children : List (Child J)} {new : List (Callback J)}
    (h : EventsOf children new) : begunJobs new = [] := by
  refine List.filterMap_eq_nil_iff.mpr fun cb hcb => ?_
  obtain ⟨c, -, ev, rfl⟩ := h cb hcb
  rfl

theorem EventsOf.endJob_notMem {children : List (Child J)} {new : List (Callback J)}
    (h : EventsOf children new) (j : Job J) (res : Result) : .endJob j res ∉ new := by
  intro hmem
  obtain ⟨c, -, ev, he⟩ := h _ hmem
  cases he

section
variable {cs new : List (Callback J)}

theorem Told.allowed_events (h : Told r plan s cs) (hnew : EventsOf s.runner.children new) :
    Each Callback.Allowed (cs ++ new) := by
  refine h.allowed.append fun pre n post heq => ?_
  have hpre : ∀ cb ∈ pre, cb ∈ new := by
    intro cb hcb
    rw [heq]
    exact List.mem_append_left _ hcb
  obtain ⟨c, hc, ev, rfl⟩ := hnew n (by rw [heq]; simp)
  obtain ⟨hbegun, hnone⟩ := h.child c hc
  refine ⟨List.mem_append_left _ hbegun, fun res hmem => ?_⟩
  rcases List.mem_append.mp hmem with hmem | hmem
  · exact hnone res hmem
  · exact hnew.endJob_notMem c.job res (hpre _ hmem)

theorem Told.mem_append_events (hnew : EventsOf s.runner.children new) {j : Job J}
    (h : .beginJob j ∈ cs ++ new) : .beginJob j ∈ cs := by
  rw [← mem_begunJobs, begunJobs_append, hnew.begunJobs, List.append_nil, mem_begunJobs] at h
  exact h

/-- A step that tells of events of children only, each child going on as the same one. -/
theorem Told.events (h : Told r plan s cs) (hnew : EventsOf s.runner.children new)
    (hcalls : s'.runner.calls = s.runner.calls ++ new) (hjobs : SameJobs s s')
    (hpc : s.pc.stopped = false) (hpc' : s'.pc.stopped = false)
    (hch : s'.runner.children.map Child.job = s.runner.children.map Child.job) :
    Told r plan s' (cs ++ new) := by
  obtain ⟨hdone, hexited⟩ := Pc.ne_of_not_stopped hpc
  obtain ⟨hdone', -⟩ := Pc.ne_of_not_stopped hpc'
  refine ⟨h.calls_append hdone hdone' hcalls, h.allowed_events hnew, fun _ => ?_,
    fun _ j hj => ?_, fun c' hc' => ?_⟩
  · rw [begunJobs_append, hnew.begunJobs, List.append_nil, hjobs.1, hjobs.2]
    exact h.begun hexited
  · rw [hjobs.1]
    exact h.lt hexited j (Told.mem_append_events hnew hj)
  · have hmem := List.mem_map_of_mem (f := Child.job) hc'
    rw [hch] at hmem
    obtain ⟨c, hc, hjob⟩ := List.mem_map.mp hmem
    obtain ⟨hbegun, hnone⟩ := h.child c hc
    rw [← hjob]
    refine ⟨List.mem_append_left _ hbegun, fun res hmem => ?_⟩
    exact (List.mem_append.mp hmem).elim (hnone res) (hnew.endJob_notMem c.job res)

/-- A step that tells nothing. -/
theorem Told.quiet (h : Told r plan s cs)
    (hpc : s'.pc = s.pc ∨ s.pc.stopped = false ∧ s.MovesTo l s'.pc) (hjobs : SameJobs s s')
    (hch : Changes s s' s.runner.children [] []) : Told r plan s' cs := by
  rcases hpc with hpc | ⟨hpc, hto⟩
  · refine ⟨?_, h.allowed, ?_, ?_, ?_⟩
    · rw [hch.calls, List.append_nil, hpc]
      exact h.calls
    · rw [hpc, hjobs.1, hjobs.2]
      exact h.begun
    · rw [hpc, hjobs.1]
      exact h.lt
    · rw [hch.children]
      exact h.child
  · have hpc' : s'.pc.stopped = false := by
      cases hs' : s'.pc with
      | done =>
          rw [hs'] at hto
          exact hto.elim
      | exited =>
          rw [hs'] at hto
          exact hto.elim
      | _ => rfl
    have hevents : Told r plan s' (cs ++ []) :=
      h.events (eventsOf_nil _) hch.calls hjobs hpc hpc' (by rw [hch.children])
    rwa [List.append_nil] at hevents

/-- A job is begun, with a new id. -/
theorem Told.begins (h : Told r plan s cs) {item : J} {todo : List J} {c : Child J}
    (hpc : s.pc = .loop) (hpc' : s'.pc = .loop) (hbefore : s.todo = item :: todo)
    (hafter : s'.todo = todo) (hid : s'.runner.nextId = s.runner.nextId + 1)
    (hjob : c.job = ⟨s.runner.nextId, item⟩)
    (hch : Changes s s' (s.runner.children ++ [c]) [.beginJob c.job] []) :
    Told r plan s' (cs ++ [.beginJob c.job]) := by
  have hexited : s.pc ≠ .exited := by rw [hpc]; decide
  have hlt := h.lt hexited
  have hcid : c.job.id = s.runner.nextId := congrArg Job.id hjob
  refine ⟨h.calls_append (by rw [hpc]; decide) (by rw [hpc']; decide) hch.calls, ?_, fun _ => ?_,
    fun _ j hj => ?_, fun d hd => ?_⟩
  · refine h.allowed.append (each_singleton fun k hk => ?_)
    rw [List.append_nil] at hk
    exact Nat.ne_of_lt (hcid ▸ hlt k hk)
  · have hbegun := h.begun hexited
    rw [hbefore, jobsFrom, ← hjob] at hbegun
    rw [begunJobs_append, hid, hafter, List.append_assoc]
    exact hbegun
  · rw [hid]
    rcases List.mem_append.mp hj with hj | hj
    · exact Nat.lt_succ_of_lt (hlt j hj)
    · cases List.mem_singleton.mp hj
      rw [hcid]
      exact Nat.lt_succ_self _
  · rw [hch.children] at hd
    rcases List.mem_append.mp hd with hd | hd
    · obtain ⟨hbegun, hnone⟩ := h.child d hd
      refine ⟨List.mem_append_left _ hbegun, fun res hmem => ?_⟩
      rcases List.mem_append.mp hmem with hmem | hmem
      · exact hnone res hmem
      · cases List.mem_singleton.mp hmem
    · obtain rfl := List.mem_singleton.mp hd
      refine ⟨by simp, fun res hmem => ?_⟩
      rcases List.mem_append.mp hmem with hmem | hmem
      · -- what is ended was begun
        obtain ⟨pre, post, rfl⟩ := List.append_of_mem hmem
        have hbegun := (h.allowed pre _ post rfl).1
        have hlt' := hlt d.job (List.mem_append_left _ hbegun)
        omega
      · cases List.mem_singleton.mp hmem

/-- The process ends where a child cannot be forked. -/
theorem Told.beginFails (h : Told r plan s cs) {item : J} (hpc : s.pc = .loop)
    (hpc' : s'.pc = .exited)
    (hch : Changes s s' s.runner.children [.beginJob ⟨s.runner.nextId, item⟩] []) :
    Told r plan s' (cs ++ [.beginJob ⟨s.runner.nextId, item⟩]) := by
  have hlt := h.lt (by rw [hpc]; decide)
  refine ⟨h.calls_append (by rw [hpc]; decide) (by rw [hpc']; decide) hch.calls, ?_,
    fun he => absurd hpc' he, fun he => absurd hpc' he, fun d hd => ?_⟩
  · refine h.allowed.append (each_singleton fun k hk => ?_)
    rw [List.append_nil] at hk
    exact Nat.ne_of_lt (hlt k hk)
  · rw [hch.children] at hd
    obtain ⟨hbegun, hnone⟩ := h.child d hd
    refine ⟨List.mem_append_left _ hbegun, fun res hmem => ?_⟩
    rcases List.mem_append.mp hmem with hmem | hmem
    · exact hnone res hmem
    · cases List.mem_singleton.mp hmem

theorem Child.reapCalls_eq (c : Child J) (st : Status) :
    ∃ evs : List Event,
      c.reapCalls st = evs.map (.addEvent c.job) ++ [.endJob c.job (c.reapResult st)] :=
  ⟨(exitEvent c.pid st).toList.map Event.normalise, by rw [List.map_map]; rfl⟩

/-- A child is reaped and its job ended. -/
theorem Told.reaps (h : Told r plan s cs) (hw : Wf s) {c : Child J} {st : Status}
    {as bs : List (Child J)} (hpc : s.pc.stopped = false) (hpc' : s'.pc.stopped = false)
    (hsplit : s.runner.children = as ++ c :: bs) (hjobs : SameJobs s s')
    (hch : Changes s s' (as ++ bs) (c.reapCalls st) []) :
    Told r plan s' (cs ++ c.reapCalls st) := by
  obtain ⟨hdone, hexited⟩ := Pc.ne_of_not_stopped hpc
  obtain ⟨hdone', -⟩ := Pc.ne_of_not_stopped hpc'
  have hc : c ∈ s.runner.children := by
    rw [hsplit]
    exact List.mem_append_right _ List.mem_cons_self
  obtain ⟨evs, hcalls⟩ := c.reapCalls_eq st
  have hevs := eventsOf_map hc evs
  obtain ⟨hbegun, hnone⟩ := h.child c hc
  have hbegin : ∀ j, Callback.beginJob j ∈ cs ++ c.reapCalls st → Callback.beginJob j ∈ cs := by
    intro j hj
    rw [hcalls, ← List.append_assoc] at hj
    rcases List.mem_append.mp hj with hj | hj
    · exact Told.mem_append_events hevs hj
    · cases List.mem_singleton.mp hj
  refine ⟨h.calls_append hdone hdone' hch.calls, ?_, fun _ => ?_, fun _ j hj => ?_,
    fun d hd => ?_⟩
  · rw [hcalls, ← List.append_assoc]
    refine (h.allowed_events hevs).append (each_singleton ?_)
    rw [List.append_nil]
    refine ⟨List.mem_append_left _ hbegun, fun res hmem => ?_⟩
    exact (List.mem_append.mp hmem).elim (hnone res) (hevs.endJob_notMem c.job res)
  · rw [begunJobs_append, hcalls, begunJobs_append, hevs.begunJobs, hjobs.1, hjobs.2]
    have hold := h.begun hexited
    rwa [← List.append_nil (begunJobs cs)] at hold
  · rw [hjobs.1]
    exact h.lt hexited j (hbegin j hj)
  · rw [hch.children] at hd
    obtain ⟨hd', hne⟩ := hw.of_split hsplit hd
    obtain ⟨hbegun, hnone⟩ := h.child d hd'
    refine ⟨List.mem_append_left _ hbegun, fun res hmem => ?_⟩
    rw [hcalls, ← List.append_assoc] at hmem
    rcases List.mem_append.mp hmem with hmem | hmem
    · exact (List.mem_append.mp hmem).elim (hnone res) (hevs.endJob_notMem d.job res)
    · have he := (Callback.endJob.inj (List.mem_singleton.mp hmem)).1
      exact hne (congrArg Job.id he)

theorem Told.finishes (h : Told r plan s cs) (hpc : s.pc.stopped = false) (hpc' : s'.pc = .done)
    (hjobs : SameJobs s s') (hch : Changes s s' s.runner.children [.finish] []) :
    Told r plan s' cs := by
  obtain ⟨hdone, hexited⟩ := Pc.ne_of_not_stopped hpc
  refine ⟨?_, h.allowed, fun _ => ?_, fun _ => ?_, ?_⟩
  · rw [hch.calls, h.calls, if_neg hdone, if_pos hpc']
    simp
  · rw [hjobs.1, hjobs.2]
    exact h.begun hexited
  · rw [hjobs.1]
    exact h.lt hexited
  · rw [hch.children]
    exact h.child

end

/-! ### One child at a time -/

/-- The calls of a run with one child at a time: the jobs that were ended, a block each, and behind
them the child there is. -/
def Serial (r : Runner J) (plan : List J) (s : Sys J) (cs : List (Callback J)) : Prop :=
  ∃ js bs, List.Forall₂ IsBlock js bs ∧
    ((s.runner.children = [] ∧ (s.pc ≠ .exited →
        cs = bs.flatten ∧ js ++ jobsFrom s.runner.nextId s.todo = jobsFrom r.nextId plan)) ∨
      ∃ (c : Child J) (evs : List Event), s.runner.children = [c] ∧
        cs = bs.flatten ++ .beginJob c.job :: evs.map (.addEvent c.job) ∧
        js ++ c.job :: jobsFrom s.runner.nextId s.todo = jobsFrom r.nextId plan)

theorem serial_start (hc : r.children = []) (plan : List J) :
    Serial r plan (Sys.start r plan) [] :=
  ⟨[], [], .nil, .inl ⟨hc, fun _ => ⟨rfl, rfl⟩⟩⟩

/-- Events of one child. -/
theorem EventsOf.eq_map {c : Child J} {new : List (Callback J)} (h : EventsOf [c] new) :
    ∃ evs : List Event, new = evs.map (.addEvent c.job) := by
  induction new with
  | nil => exact ⟨[], rfl⟩
  | cons cb new ih =>
      obtain ⟨evs, rfl⟩ := ih fun cb hcb => h cb (List.mem_cons_of_mem _ hcb)
      obtain ⟨d, hd, ev, rfl⟩ := h cb List.mem_cons_self
      rw [List.mem_singleton.mp hd]
      exact ⟨ev :: evs, rfl⟩

section
variable {cs new : List (Callback J)}

theorem Serial.events (h : Serial r plan s cs) (hnew : EventsOf s.runner.children new)
    (hjobs : SameJobs s s') (hexited : s'.pc ≠ .exited → s.pc ≠ .exited)
    (hch : s'.runner.children.map Child.job = s.runner.children.map Child.job) :
    Serial r plan s' (cs ++ new) := by
  obtain ⟨js, bs, hbs, ⟨hnil, hcs⟩ | ⟨c, evs, hone, hcs, hjs⟩⟩ := h
  · rw [hnil] at hch hnew
    have hnew' : new = [] := by
      refine List.eq_nil_iff_forall_not_mem.mpr fun cb hcb => ?_
      obtain ⟨c, hc, -⟩ := hnew cb hcb
      cases hc
    refine ⟨js, bs, hbs, .inl ⟨List.map_eq_nil_iff.mp hch, fun hex => ?_⟩⟩
    rw [hnew', List.append_nil, hjobs.1, hjobs.2]
    exact hcs (hexited hex)
  · rw [hone] at hch hnew
    obtain ⟨evs', rfl⟩ := hnew.eq_map
    obtain ⟨c', hc', hjob⟩ : ∃ c', s'.runner.children = [c'] ∧ c'.job = c.job := by
      obtain ⟨c', hc'⟩ := List.length_eq_one_iff.mp
        (show s'.runner.children.length = 1 by simpa using congrArg List.length hch)
      rw [hc'] at hch
      exact ⟨c', hc', (List.cons.inj hch).1⟩
    refine ⟨js, bs, hbs, .inr ⟨c', evs ++ evs', hc', ?_, ?_⟩⟩
    · rw [hcs, hjob, List.map_append, List.append_assoc, List.cons_append]
    · rw [hjob, hjobs.1, hjobs.2]
      exact hjs

/-- The next job is begun when there is no child. -/
theorem Serial.begins (h : Serial r plan s cs) {item : J} {todo : List J} {c : Child J}
    (hpc : s.pc = .loop) (hnil : s.runner.children = []) (hbefore : s.todo = item :: todo)
    (hafter : s'.todo = todo) (hid : s'.runner.nextId = s.runner.nextId + 1)
    (hjob : c.job = ⟨s.runner.nextId, item⟩) (hch : s'.runner.children = s.runner.children ++ [c]) :
    Serial r plan s' (cs ++ [.beginJob c.job]) := by
  obtain ⟨js, bs, hbs, ⟨-, hcs⟩ | ⟨d, evs, hone, -⟩⟩ := h
  · obtain ⟨rfl, hjs⟩ := hcs (by rw [hpc]; decide)
    rw [hnil] at hch
    refine ⟨js, bs, hbs, .inr ⟨c, [], hch, rfl, ?_⟩⟩
    rw [hbefore, jobsFrom, ← hjob] at hjs
    rw [hid, hafter]
    exact hjs
  · rw [hnil] at hone
    cases hone

theorem Serial.reaps (h : Serial r plan s cs) {c : Child J} {st : Status} {as bs : List (Child J)}
    (hsplit : s.runner.children = as ++ c :: bs) (hjobs : SameJobs s s')
    (hch : s'.runner.children = as ++ bs) : Serial r plan s' (cs ++ c.reapCalls st) := by
  obtain ⟨js, blocks, hbs, ⟨hnil, -⟩ | ⟨d, evs, hone, hcs, hjs⟩⟩ := h
  · rw [hnil] at hsplit
    cases as <;> cases hsplit
  · rw [hone] at hsplit
    obtain ⟨rfl, rfl, rfl⟩ : as = [] ∧ d = c ∧ bs = [] := by
      cases as with
      | nil =>
          cases hsplit
          exact ⟨rfl, rfl, rfl⟩
      | cons a as => cases as <;> cases hsplit
    obtain ⟨evs', hcalls⟩ := d.reapCalls_eq st
    refine ⟨js ++ [d.job], blocks ++ [.beginJob d.job :: (evs ++ evs').map (.addEvent d.job) ++
      [.endJob d.job (d.reapResult st)]], ?_, .inl ⟨hch, fun _ => ⟨?_, ?_⟩⟩⟩
    · exact List.rel_append hbs (.cons ⟨_, _, rfl⟩ .nil)
    · rw [hcs, hcalls]
      simp
    · rw [hjobs.1, hjobs.2, List.append_assoc]
      exact hjs

/-- The children after a `poll()` that timed out run the same jobs. -/
theorem map_job_timedOut (now : Int) (children : List (Child J)) :
    (children.map (Child.timedOut now)).map Child.job = children.map Child.job := by
  rw [List.map_map]
  refine List.map_congr_left fun c _ => ?_
  exact congrArg (fun k : Pid × Job J × Bool => k.2.1) (c.timedOut_key now)

theorem eventsOf_timeoutCall (now : Int) (children : List (Child J)) :
    EventsOf children (children.filterMap (Child.timeoutCall now)) := by
  intro cb hcb
  obtain ⟨c, hc, he⟩ := List.mem_filterMap.mp hcb
  refine ⟨c, hc, ?_⟩
  rw [Child.timeoutCall] at he
  split at he
  · split at he
    · cases he
      exact ⟨_, rfl⟩
    · cases he
  · cases he

/-- A child that is read runs the same job. -/
theorem map_job_set {children : List (Child J)} {i : Nat} {c c' : Child J}
    (hi : children[i]? = some c) (hjob : c'.job = c.job) :
    (children.set i c').map Child.job = children.map Child.job := by
  obtain ⟨hlt, -⟩ := List.getElem?_eq_some_iff.mp hi
  refine List.ext_getElem? fun j => ?_
  rw [List.map_set, List.getElem?_set]
  split
  case isTrue hij =>
    subst hij
    rw [if_pos (by simpa using hlt), List.getElem?_map, hi, Option.map_some, hjob]
  · rfl

/-- **What a step tells**, behind what was told before it. -/
theorem Told.step (h : Told r plan s cs) (hw : Wf s) (hcounted : Counted r plan s)
    (hs : s.step l = some s') :
    ∃ new, Told r plan s' (cs ++ new) ∧
      (r.maxchildren = 1 → Serial r plan s cs → Serial r plan s' (cs ++ new)) := by
  -- with one child at a time there is none where the next one is forked
  have hnil : s.pc = .loop → s.runner.nrunning < s.runner.maxchildren → r.maxchildren = 1 →
      s.runner.children = [] := by
    intro hpc hroom hone
    have hcounts := hcounted.counts
    rw [hpc] at hcounts
    rw [hcounted.max, hone, hcounts.1] at hroom
    exact List.length_eq_zero_iff.mp (Nat.lt_one_iff.mp hroom)
  cases step_effect hs with
  | quiet pc jobs hch =>
      refine ⟨[], ?_, fun _ hser => hser.events (eventsOf_nil _) jobs ?_ (by rw [hch.children])⟩
      · rw [List.append_nil]
        exact h.quiet pc jobs hch
      · rcases pc with pc | ⟨pc, -⟩
        · exact fun hne => pc ▸ hne
        · exact fun _ => (Pc.ne_of_not_stopped pc).2
  | begins label pc pc' room before after nextId job state result hch =>
      refine ⟨_, h.begins pc pc' before after nextId job hch, fun hone hser => ?_⟩
      exact hser.begins pc (hnil pc room hone) before after nextId job hch.children
  | beginFails pc pc' room jobs hch =>
      refine ⟨_, h.beginFails pc pc' hch, fun hone hser => ?_⟩
      obtain ⟨js, bs, hbs, -⟩ := hser
      refine ⟨js, bs, hbs, .inl ⟨?_, fun hne => absurd pc' hne⟩⟩
      rw [hch.children]
      exact hnil pc room hone
  | @timesOut start now label pc pc' jobs hch =>
      obtain ⟨nz, hpc⟩ := pc
      obtain ⟨nz', hpc'⟩ := pc'
      have hnew := eventsOf_timeoutCall now s.runner.children
      have hjobs : s'.runner.children.map Child.job = s.runner.children.map Child.job := by
        rw [hch.children, map_job_timedOut]
      have hstop : s.pc.stopped = false := by rw [hpc]; rfl
      exact ⟨_, h.events hnew hch.calls jobs hstop (by rw [hpc']; rfl) hjobs,
        fun _ hser => hser.events hnew jobs (fun _ => (Pc.ne_of_not_stopped hstop).2) hjobs⟩
  | @reads nz i nf pfd pfd' nf' c c' evs label pc pc' at_i unfinished follows named jobs hch =>
      have hnew := eventsOf_map (List.mem_of_getElem? at_i) evs
      have hjobs : s'.runner.children.map Child.job = s.runner.children.map Child.job := by
        rw [hch.children, map_job_set at_i follows.job]
      have hstop : s.pc.stopped = false := by rw [pc]; rfl
      exact ⟨_, h.events hnew hch.calls jobs hstop (by rw [pc']; rfl) hjobs,
        fun _ hser => hser.events hnew jobs (fun _ => (Pc.ne_of_not_stopped hstop).2) hjobs⟩
  | reaps st label pc split jobs hch =>
      have hstop : s.pc.stopped = false ∧ s'.pc.stopped = false := by
        rcases pc with ⟨hpc | hpc, hpc'⟩ | ⟨nz, num, num', hpc, hpc'⟩
        · rw [hpc', hpc]
          exact ⟨rfl, rfl⟩
        · rw [hpc', hpc]
          exact ⟨rfl, rfl⟩
        · rw [hpc', hpc]
          exact ⟨rfl, rfl⟩
      exact ⟨_, h.reaps hw hstop.1 hstop.2 split jobs hch,
        fun _ hser => hser.reaps split jobs hch.children⟩
  | finishes pc pc' jobs hch =>
      refine ⟨[], ?_, fun _ hser => hser.events (eventsOf_nil _) jobs ?_ (by rw [hch.children])⟩
      · rw [List.append_nil]
        exact h.finishes pc pc' jobs hch
      · exact fun _ => (Pc.ne_of_not_stopped pc).2

end

end NovaProva
