import NovaProva.Runner.Delivery
import NovaProva.Runner.Fixtures
import NovaProva.Runner.Text
import NovaProva.Tree.Planned

/-!
# Runner — Verdicts

From what `run_test_code` finds in the children to what is written about it.  A child raises the
events of a test and sends its result, the parent hears of them through the pipes and tells its
listeners, and the listeners are told of every test that is discovered.

* `behaves`: the steps in which every child does what `run_test_code` makes it do, and none of those
  that lose the calls of a child.  The strings of an event that are destroyed before it is sent are
  whatever is found where they were.
* `Verdicts`: the listeners were told the results and the events of the tests.
* `discovered_tests_verdicts`: for the tests of a program and the default plan.
-/

namespace NovaProva

/-! ### What `run_test_code` finds -/

namespace Ran

/-- Events are normalised, and the result is no better than theirs. -/
structure Steady (x : Ran) : Prop where
  events : ∀ e ∈ x.events, ∃ e' : Event, e = e'.normalise
  result : (Result.mergeAll (x.events.map Event.getResult)).merge x.result = x.result

variable {x : Ran}

theorem steady_new : Steady {} := ⟨fun _ he => absurd he List.not_mem_nil, rfl⟩

theorem Steady.raise (h : x.Steady) (ev : Event) : (x.raise ev).Steady := by
  constructor
  · intro e he
    rcases List.mem_append.mp he with he | he
    · exact h.events e he
    · exact ⟨ev, List.mem_singleton.mp he⟩
  · rw [raise_result]
    show (Result.mergeAll ((x.events ++ [ev.normalise]).map Event.getResult)).merge _ = _
    rw [List.map_append, Result.mergeAll_append, List.map_singleton, Event.getResult_normalise,
      Result.mergeAll_cons, Result.mergeAll_nil, Result.merge_unknown]
    calc ((Result.mergeAll (x.events.map Event.getResult)).merge ev.getResult).merge
          (x.result.merge ev.getResult)
        = ((Result.mergeAll (x.events.map Event.getResult)).merge x.result).merge
          (ev.getResult.merge ev.getResult) := by
          rw [Result.merge_assoc, Result.merge_assoc, ← Result.merge_assoc ev.getResult,
            Result.merge_comm ev.getResult x.result, Result.merge_assoc x.result]
      _ = x.result.merge ev.getResult := by rw [h.result, Result.merge_self]

theorem Steady.calls (h : x.Steady) (cs : List (FuncType × Func)) :
    Steady { x with calls := cs } := ⟨h.events, h.result⟩

theorem Steady.tryCatch (h : x.Steady) (ft : FuncType)
    (p : List (FuncType × Func) × Option Event) : (x.tryCatch ft p).Steady := by
  rw [Ran.tryCatch]
  cases p.2 with
  | none => exact h.calls _
  | some ev => exact (h.calls _).raise _

theorem Steady.pass (h : x.Steady) : Steady { x with result := x.result.merge .pass } :=
  ⟨h.events, by rw [← Result.merge_assoc, h.result]⟩

/-- The checks for leaks raise events. -/
theorem keeps_checks {P : Ran → Prop} (hraise : ∀ x ev, P x → P (x.raise ev)) (ob : Observed)
    (h : P x) : P (valgrindErrors ob (descriptorLeaks ob x)) := by
  have hleaks : P (descriptorLeaks ob x) := by
    rw [descriptorLeaks]
    refine List.foldlRecOn _ _ h fun x hx fd _ => ?_
    cases leakEvent fd (ob.prefds[fd]?.getD .empty) (ob.postfds[fd]?.getD .empty) with
    | none => exact hx
    | some ev => exact hraise x ev hx
  rw [valgrindErrors]
  split_ifs
  · exact hraise _ _ (hraise _ _ hleaks)
  · exact hraise _ _ hleaks
  · exact hraise _ _ hleaks
  · exact hleaks

end Ran

theorem runFunctions_steady (tn : TestCase) :
    (runFunctions tn).Steady ∧ (runFunctions tn).result ≠ .unknown := by
  have hsetup := Ran.steady_new.tryCatch .before
    (runFixtures .before (getFixtures tn.nodes .before))
  rw [runFunctions]
  split
  · refine ⟨((hsetup.tryCatch _ _).tryCatch _ _).pass, ?_⟩
    show Result.merge _ .pass ≠ .unknown
    rw [Result.merge_comm]
    exact Result.merge_ne_unknown (by decide)
  case isFalse hknown =>
    exact ⟨hsetup, hknown⟩

/-- What a child reports comes to the result it found. -/
theorem runTestCode_steady (ob : Observed) (tn : TestCase) :
    (runTestCode ob tn).Steady ∧ (runTestCode ob tn).result ≠ .unknown := by
  refine Ran.keeps_checks (P := fun x => x.Steady ∧ x.result ≠ .unknown) (fun x ev hx => ?_) ob
    (runFunctions_steady tn)
  exact ⟨hx.1.raise ev, by rw [Ran.raise_result]; exact Result.merge_ne_unknown hx.2⟩

/-! ### What a child writes -/

/-- What is found where the pointers of an event point leaves its result. -/
theorem Event.Settles.getResult {e e' : Event} (h : e.Settles e') : e'.getResult = e.getResult := by
  cases h
  rfl

theorem Event.Settles.description {e e' : Event} (h : e.Settles e') :
    e'.description = e.description := by
  cases h
  rfl

/-- The event that is written arrives as it was settled. -/
theorem Event.Settles.received {orig e : Event} (h : orig.normalise.Settles e)
    (hfits : (Message.event e).Fits) : e.received.normalise = e ∧ e.Readable := by
  have hdesc : orig.description ≠ .dangling := by
    intro hd
    obtain ⟨functype, file, function, stack, hbuilt, -⟩ := orig.normalise_eq_built
    refine hfits.1.ne_dangling ?_
    rw [h.description, hbuilt, description_built, hd]
    rfl
  obtain ⟨description, functype, file, function, stack, rfl⟩ := settles_normalise hdesc h
  refine ⟨spelled_received .., ?_⟩
  exact ⟨hfits.1.ne_dangling, hfits.2.1.ne_dangling, hfits.2.2.ne_dangling⟩

theorem map_getResult_of_settles {es es' : List Event} (h : List.Forall₂ Event.Settles es es') :
    es'.map Event.getResult = es.map Event.getResult := by
  induction h with
  | nil => rfl
  | cons hhead _ ih => rw [List.map_cons, List.map_cons, hhead.getResult, ih]

/-- What is written of the events of `run_test_code`. -/
structure Writes (x : Ran) (sent : List Event) : Prop where
  settles : List.Forall₂ Event.Settles x.events sent
  fits : ∀ e ∈ sent, (Message.event e).Fits

theorem Writes.received {x : Ran} {sent : List Event} (h : Writes x sent) (hx : x.Steady) :
    ∀ e ∈ sent, e.received.normalise = e ∧ e.Readable := by
  intro e he
  obtain ⟨e₀, he₀, hsettles⟩ : ∃ e₀ ∈ x.events, e₀.Settles e := by
    obtain ⟨i, hi, rfl⟩ := List.getElem_of_mem he
    have hlen := h.settles.length_eq
    exact ⟨x.events[i], List.getElem_mem _, h.settles.get (by omega) hi⟩
  obtain ⟨orig, rfl⟩ := hx.events e₀ he₀
  exact hsettles.received (h.fits e he)

/-- All of it arrives as it is. -/
theorem fullReport_of_writes {x : Ran} {sent : List Event} (h : Writes x sent) (hx : x.Steady)
    (hknown : x.result ≠ .unknown) :
    fullReport sent x.result = sent.map .event ++ [.finished x.result] := by
  rw [fullReport]
  congr 1
  · refine List.map_congr_left fun e he => ?_
    rw [(h.received hx e he).1]
  · rw [Result.mergeAll_append, Result.mergeAll_cons, Result.mergeAll_cons, Result.mergeAll_nil,
      Result.merge_unknown, Result.merge_pass hknown, map_getResult_of_settles h.settles, hx.result]

/-! ### What the listeners are told -/

section
variable {J : Type}

/-- A job that ends, and its result. -/
def Callback.ended? : Callback J → Option (Job J × Result)
  | .endJob j res => some (j, res)
  | _             => none

/-- An event of a job. -/
def Callback.eventOf? (id : Nat) : Callback J → Option Event
  | .addEvent j ev => if j.id = id then some ev else none
  | _              => none

/-- The listeners were told of each job what was found for it; where a pointer of an event was
dangling in the child, they were told some string. -/
structure Verdicts (ran : Job J → Ran) (jobs : List (Job J)) (cs : List (Callback J)) : Prop where
  ended : (cs.filterMap Callback.ended?).Perm (jobs.map fun j => (j, (ran j).result))
  events : ∀ j ∈ jobs,
    List.Forall₂ Event.Settles (ran j).events (cs.filterMap (Callback.eventOf? j.id))

theorem map_fst_ended (cs : List (Callback J)) :
    (cs.filterMap Callback.ended?).map Prod.fst = endedJobs cs := by
  rw [List.map_filterMap, endedJobs]
  congr 1
  funext cb
  cases cb <;> rfl

/-- How many jobs were found to fail. -/
def failing (ran : Job J → Ran) (jobs : List (Job J)) : Nat :=
  jobs.countP fun j => (ran j).result = .fail

theorem Verdicts.failures {ran : Job J → Ran} {jobs : List (Job J)} {cs : List (Callback J)}
    (h : Verdicts ran jobs cs) : failures cs = failing ran jobs := by
  have hcount : ∀ cs : List (Callback J), NovaProva.failures cs =
      (cs.filterMap Callback.ended?).countP fun x => x.2 = .fail := by
    intro cs
    rw [NovaProva.failures, List.countP_filterMap]
    congr 1
    funext cb
    cases cb with
    | endJob j res => cases res <;> rfl
    | _ => rfl
  rw [hcount, h.ended.countP_eq, List.countP_map]
  rfl

theorem Verdicts.congr {ran ran' : Job J → Ran} {jobs : List (Job J)} {cs : List (Callback J)}
    (h : Verdicts ran jobs cs) (heq : ∀ j ∈ jobs, ran j = ran' j) : Verdicts ran' jobs cs := by
  have hresults :
      (jobs.map fun j => (j, (ran j).result)) = jobs.map fun j => (j, (ran' j).result) :=
    List.map_congr_left fun j hj => by rw [heq j hj]
  constructor
  · rw [← hresults]
    exact h.ended
  · intro j hj
    rw [← heq j hj]
    exact h.events j hj

theorem reports_eq_finished {id : Nat} {cs : List (Callback J)} {j : Job J} {res : Result}
    (hid : j.id = id) (h : .endJob j res ∈ cs) : .finished res ∈ reports id cs :=
  List.mem_filterMap.mpr ⟨_, h, if_pos hid⟩

/-- The events of a job are those in its report. -/
theorem filterMap_eventOf (id : Nat) (cs : List (Callback J)) :
    cs.filterMap (Callback.eventOf? id) =
      (reports id cs).filterMap fun | .event ev => some ev | .finished _ => none := by
  rw [reports, List.filterMap_filterMap]
  congr 1
  funext cb
  cases cb with
  | addEvent j ev =>
      by_cases hid : j.id = id
      · simp [Callback.eventOf?, hid]
      · simp [Callback.eventOf?, hid]
  | endJob j res =>
      by_cases hid : j.id = id
      · simp [Callback.eventOf?, hid]
      · simp [Callback.eventOf?, hid]
  | _ => rfl

/-- **What arrives of each job is what is told of it.** -/
theorem verdicts_of_delivered {ran : Job J → Ran} {sent : Job J → List Event} {r : Runner J}
    {plan : List J} {cs : List (Callback J)} (hplan : RunsPlan r plan cs)
    (hwrites : ∀ j ∈ jobsFrom r.nextId plan, Writes (ran j) (sent j))
    (hreport : ∀ j ∈ jobsFrom r.nextId plan,
      fullReport (sent j) (ran j).result = (sent j).map .event ++ [.finished (ran j).result])
    (hdelivered : ∀ j ∈ jobsFrom r.nextId plan, Delivered j.id (sent j) (ran j).result cs) :
    Verdicts ran (jobsFrom r.nextId plan) cs ∧
      ∀ j ∈ jobsFrom r.nextId plan, cs.filterMap (Callback.eventOf? j.id) = sent j := by
  have hreported : ∀ j ∈ jobsFrom r.nextId plan, ∀ res, .endJob j res ∈ cs →
      reports j.id cs = (sent j).map .event ++ [.finished (ran j).result] := fun j hj res he =>
    (hdelivered j hj res (reports_eq_finished rfl he)).trans (hreport j hj)
  have hend : ∀ x ∈ cs.filterMap Callback.ended?, x = (x.1, (ran x.1).result) := by
    rintro ⟨j, res⟩ hx
    obtain ⟨cb, hcb, he⟩ := List.mem_filterMap.mp hx
    obtain ⟨rfl⟩ : cb = .endJob j res := by cases cb <;> cases he; rfl
    have hj : j ∈ jobsFrom r.nextId plan :=
      hplan.ended.mem_iff.mp (map_fst_ended cs ▸ List.mem_map_of_mem hx)
    have hmem : .finished res ∈ reports j.id cs := reports_eq_finished rfl hcb
    rw [hreported j hj res hcb] at hmem
    simpa using hmem
  have htold : ∀ j ∈ jobsFrom r.nextId plan,
      cs.filterMap (Callback.eventOf? j.id) = sent j := by
    intro j hj
    obtain ⟨⟨j', res⟩, hx, hj'⟩ : ∃ x ∈ cs.filterMap Callback.ended?, x.1 = j := by
      have hmem := hplan.ended.mem_iff.mpr hj
      rw [← map_fst_ended] at hmem
      exact List.mem_map.mp hmem
    obtain ⟨cb, hcb, he⟩ := List.mem_filterMap.mp hx
    obtain ⟨rfl⟩ : cb = .endJob j res := by cases cb <;> cases he; rw [← hj']
    rw [filterMap_eventOf, hreported j hj res hcb, List.filterMap_append, List.filterMap_map]
    simp
  refine ⟨⟨?_, fun j hj => ?_⟩, htold⟩
  · have hperm : ((cs.filterMap Callback.ended?).map Prod.fst).Perm (jobsFrom r.nextId plan) := by
      rw [map_fst_ended]
      exact hplan.ended
    have hsame : ((cs.filterMap Callback.ended?).map Prod.fst).map (fun j => (j, (ran j).result)) =
        cs.filterMap Callback.ended? := by
      rw [List.map_map]
      exact (List.map_congr_left fun x hx => (hend x hx).symm).trans (List.map_id _)
    have hpairs := hperm.map fun j => (j, (ran j).result)
    rwa [hsame] at hpairs
  · rw [htold j hj]
    exact (hwrites j hj).settles

/-! ### Runs in which it arrives -/

/-- Every child writes the events that are sent for its job and the result that was found, and no
step loses them. -/
def behaves (ran : Job J → Ran) (sent : Job J → List Event) (jobs : List (Job J)) (s : Sys J)
    (l : Label) : Bool :=
  jobs.all fun j => followsScript j.id (sent j) (ran j).result s l &&
    keepsCalls j.id (ran j).result s l

variable {ran : Job J → Ran} {sent : Job J → List Event} {r : Runner J} {plan : List J} {s : Sys J}

/-- All that was told of a job when the call returns. -/
theorem delivered_of_behaves {jobs : List (Job J)} {j : Job J} (hch : r.children = [])
    (hcalls : r.calls = []) (hj : j ∈ jobs)
    (hfits : ∀ e ∈ sent j, (Message.event e).Fits)
    (h : Run Sys.step (fun s l => behaves ran sent jobs s l = true) (Sys.start r plan) s) :
    Delivered j.id (sent j) (ran j).result s.runner.calls := by
  have hfit : ∀ m ∈ script (sent j) (ran j).result, m.Fits := by
    intro m hm
    rcases List.mem_append.mp hm with hm | hm
    · obtain ⟨e, he, rfl⟩ := List.mem_map.mp hm
      exact hfits e he
    · rw [List.mem_singleton.mp hm]
      trivial
  have hstart : Tracked j.id (sent j) (ran j).result (Sys.start r plan) := by
    refine .inl ⟨fun c hc => ?_, .inl ?_⟩
    · rw [show (Sys.start r plan).runner.children = [] from hch] at hc
      cases hc
    · simp [Sys.start, hcalls, reports]
  have hwf := h.strengthen (wf_start hch plan) fun _ _ _ hu _ hs => hu.step hs
  refine (hwf.invariant hstart fun u l v hu hP hs => ?_).delivered
  obtain ⟨hfollows, hkeeps⟩ := Bool.and_eq_true_iff.mp (List.all_eq_true.mp hP.1 j hj)
  exact hu.step hP.2 hfit hfollows hkeeps hs

/-- A call that returns in such a run. -/
theorem verdicts_of_behaves (h1 : 1 ≤ r.maxchildren) (hm : r.maxchildren < 2 ^ 31)
    (hch : r.children = []) (hcalls : r.calls = [])
    (hran : ∀ j ∈ jobsFrom r.nextId plan, ∃ ob tn, ran j = runTestCode ob tn)
    (hwrites : ∀ j ∈ jobsFrom r.nextId plan, Writes (ran j) (sent j))
    (h : Run Sys.step (fun s l => behaves ran sent (jobsFrom r.nextId plan) s l = true)
      (Sys.start r plan) s) (hpc : s.pc = .done) :
    ∃ cs, s.runner.calls = .begin :: (cs ++ [.finish]) ∧ RunsPlan r plan cs ∧
      Verdicts ran (jobsFrom r.nextId plan) cs ∧ ∀ cb ∈ cs, cb.Readable := by
  have hrun : Run Sys.step (fun _ _ => True) (Sys.start r plan) s := h.mono fun _ _ _ => trivial
  obtain ⟨cs, hwhole⟩ := whole_of_done h1 hm hch hrun hpc
  have htold := hwhole.toldSince hpc
  have hproper := RunTests.tellsProperly ⟨s, hrun, hpc, rfl⟩
  rw [htold] at hproper
  rw [toldSince, hcalls] at htold
  have hplan : RunsPlan r plan cs :=
    hwhole.runsPlan hpc fun cb hcb => hproper cb (by simp [hcb])
  have hsteady : ∀ j ∈ jobsFrom r.nextId plan, (ran j).Steady ∧ (ran j).result ≠ .unknown := by
    intro j hj
    obtain ⟨ob, tn, heq⟩ := hran j hj
    rw [heq]
    exact runTestCode_steady ob tn
  obtain ⟨hverdicts, hsent⟩ := verdicts_of_delivered hplan hwrites (fun j hj =>
    fullReport_of_writes (hwrites j hj) (hsteady j hj).1 (hsteady j hj).2) fun j hj => by
      have hdelivered := delivered_of_behaves hch hcalls hj (hwrites j hj).fits h
      have hreports : reports j.id s.runner.calls = reports j.id cs := by
        rw [show s.runner.calls = [.begin] ++ (cs ++ [.finish]) from htold]
        simp [reports]
      rwa [Delivered, hreports] at hdelivered
  refine ⟨cs, htold, hplan, hverdicts, fun cb hcb => ?_⟩
  cases cb with
  | addEvent j e =>
      obtain ⟨pre, post, rfl⟩ := List.append_of_mem hcb
      have hallowed : .beginJob j ∈ pre ∧ _ := hplan.allowed pre _ post rfl
      have hj : j ∈ jobsFrom r.nextId plan :=
        hplan.begun ▸ mem_begunJobs.mpr (List.mem_append_left _ hallowed.1)
      have he : e ∈ sent j := by
        rw [← hsent j hj]
        exact List.mem_filterMap.mpr ⟨_, hcb, if_pos rfl⟩
      exact ((hwrites j hj).received (hsteady j hj).1 e he).2
  | _ => trivial

end

/-! ### The tests of a tree -/

/-- What goes on in the child of a job: what the functions do there, and what is observed. -/
structure Happening where
  outcome : Func → Outcome
  observed : Observed := {}

/-- A function with what comes of it there. -/
def Func.within (w : Happening) (f : Func) : Func := { f with outcome := w.outcome f }

/-- The functions of a node. -/
def NodeData.within (w : Happening) (d : NodeData) : NodeData :=
  { d with
    before := d.before.map (Func.within w)
    test := d.test.map (Func.within w)
    after := d.after.map (Func.within w) }

/-- `run_test_code` of the node at a pointer. -/
def ranAt (t : TestNode) (w : Happening) (ptr : Ptr) : Ran :=
  ((t.at? ptr).bind fun u => u.data.test).elim {} fun f =>
    runTestCode w.observed ⟨f.within w, (t.chain ptr).map (NodeData.within w)⟩

/-- `run_test_code` of the test that is declared for a path, with what is declared along it. -/
def ranAlong (decls : List (List CString × Attachment)) (w : Happening) (q : List CString) : Ran :=
  (firstAt decls .test q).elim {} fun f =>
    runTestCode w.observed ⟨f.within w, q.inits.reverse.map fun p => (content decls p).1.within w⟩

/-- Of the nodes only the fixtures matter. -/
theorem runTestCode_congr {ob : Observed} {f : Func} {ds ds' : List NodeData}
    (hbefore : getFixtures ds .before = getFixtures ds' .before)
    (hafter : getFixtures ds .after = getFixtures ds' .after) :
    runTestCode ob ⟨f, ds⟩ = runTestCode ob ⟨f, ds'⟩ := by
  simp only [runTestCode, runFunctions, hbefore, hafter]

theorem setups_within (w : Happening) (ds : List NodeData) :
    getFixtures (ds.map (NodeData.within w)) .before =
      (getFixtures ds .before).map (Func.within w) := by
  rw [getFixtures_before, getFixtures_before, ← List.map_reverse, List.filterMap_map,
    List.map_filterMap]
  rfl

theorem teardowns_within (w : Happening) (ds : List NodeData) :
    getFixtures (ds.map (NodeData.within w)) .after =
      (getFixtures ds .after).map (Func.within w) := by
  rw [getFixtures_after, getFixtures_after, List.filterMap_map, List.map_filterMap]
  rfl

section
variable {decls : List (List CString × Attachment)} {b : Builtins} {h : Heap} {root : Nat}
  {t : TestNode} {above : List CString} {items : List Item}

/-- What is run of an item is what is declared for its path. -/
theorem PlannedAs.ranAt_eq (hplan : PlannedAs decls b h root t above items) {i : Item}
    (hi : i ∈ items) (w : Happening) : ranAt t w i.1 = ranAlong decls w (pathTo above t i.1) := by
  have hsurrounded := hplan.surrounded i hi
  rw [ranAt, ranAlong, hplan.test i hi]
  congr 1
  funext f
  have hnodes : (pathTo above t i.1).inits.reverse.map (fun p => (content decls p).1.within w) =
      ((pathTo above t i.1).inits.reverse.map fun p => (content decls p).1).map
        (NodeData.within w) := by simp
  refine runTestCode_congr ?_ ?_
  · rw [hnodes, setups_within, setups_within, hsurrounded.setups, getFixtures_before, setupsAlong]
    simp [List.filterMap_map, content]
  · rw [hnodes, teardowns_within, teardowns_within, hsurrounded.teardowns, getFixtures_after,
      teardownsAlong]
    simp [List.filterMap_map, content]

theorem PlannedAs.ranAt_runs (hplan : PlannedAs decls b h root t above items) {i : Item}
    (hi : i ∈ items) (w : Happening) : ∃ ob tn, ranAt t w i.1 = runTestCode ob tn := by
  have hmem := List.mem_map_of_mem (f := fun i : Item => (pathTo above t i.1, i.2)) hi
  obtain ⟨f, hf⟩ := Option.isSome_iff_exists.mp ((hplan.items_iff _ _).mp hmem).1
  rw [ranAt, hplan.test i hi, hf]
  exact ⟨_, _, rfl⟩

/-- Every item has a name. -/
theorem PlannedAs.asString (hplan : PlannedAs decls b h root t above items) {i : Item}
    (hi : i ∈ items) : ∃ nm, Item.asString t i = some nm := by
  have hmem := List.mem_map_of_mem (f := fun i : Item => (pathTo above t i.1, i.2)) hi
  obtain ⟨-, -, hrange⟩ := (hplan.items_iff _ _).mp hmem
  rw [Item.asString, foldlM_appendAssignment fun a ha => by simp [Assignment.value, hrange a ha]]
  exact ⟨_, rfl⟩

end

/-- **From the functions of a program to what is written about its tests.**  The tests that are
discovered are run in any order of steps in which every child writes what `run_test_code` finds,
with any strings where those of an event are destroyed, and no step loses it.  Then the listeners
are told of each test what comes of the functions that are declared along its path, the last line
counts the tests and those found to fail, and the return value is zero exactly if the second
number is. -/
theorem discovered_tests_verdicts (units : List (List Reflected)) (b : Builtins)
    (hfns : ∀ fn ∈ units.flatten, ¬ Derails units fn)
    (hvals : ∀ d ∈ declarations units, ∀ x, d.2 = .parameter x → x.values ≠ []) :
    ∃ h root t above items, testmanagerInstance units b = .ok (h, root) ∧ Represents h root t ∧
      Yields t [[]] items ∧ PlannedAs (declarations units) b h root t above items ∧
      ∀ (w : Job Item → Happening) (sent : Job Item → List Event) (r : Runner Item) (s : Sys Item)
        (l : Text.TextListener) (eprintf : List UInt8 → List UInt8),
        r.Used → r.calls = [] → r.children = [] → 1 ≤ r.maxchildren → r.maxchildren < 2 ^ 31 →
        (∀ j ∈ jobsFrom r.nextId items, Writes (ranAt t (w j) j.item.1) (sent j)) →
        Run Sys.step (fun s l => behaves (fun j => ranAt t (w j) j.item.1) sent
          (jobsFrom r.nextId items) s l = true) (Sys.start r items) s → s.pc = .done →
        let ran := fun j : Job Item => ranAlong (declarations units) (w j) (pathTo above t j.item.1)
        ∃ l' cs texts, s.runner.calls = .begin :: (cs ++ [.finish]) ∧ RunsPlan r items cs ∧
          Verdicts ran (jobsFrom r.nextId items) cs ∧
          List.Forall₂ (Text.Shows (Item.asString t) eprintf) cs texts ∧
          Text.listen (Item.asString t) eprintf l s.runner.calls = some (l',
            CString.ascii "np: running\n" ++ texts.flatten ++ Text.lastLine
              (items.length % 2 ^ 32) (failing ran (jobsFrom r.nextId items) % 2 ^ 32)) ∧
          (s.runner.returnValue = 0 ↔ failing ran (jobsFrom r.nextId items) % 2 ^ 32 = 0) := by
  obtain ⟨h, root, t, above, hinstance, ht, hplan, hdeclared⟩ := exists_instance units b hfns
  refine ⟨h, root, t, above, _, hinstance, ht, ?_, hplan, ?_⟩
  · refine collect_walk (TestNode.walk_node rfl) fun ptr hptr x hx => ?_
    obtain ⟨d, hd, heq⟩ := hdeclared ptr hptr x hx
    exact hvals d hd x heq
  · generalize testItems t (TestNode.preorder [] t) = items at hplan
    intro w sent r s l eprintf hr hcalls hch h1 hm hwrites hrun hpc ran
    have hitem : ∀ j ∈ jobsFrom r.nextId items, j.item ∈ items := fun j hj =>
      item_mem_of_mem_jobsFrom hj
    obtain ⟨cs, htold, hruns, hfound, hread⟩ := verdicts_of_behaves h1 hm hch hcalls
      (fun j hj => hplan.ranAt_runs (hitem j hj) (w j)) hwrites hrun hpc
    have hverdicts : Verdicts ran (jobsFrom r.nextId items) cs :=
      hfound.congr fun j hj => hplan.ranAt_eq (hitem j hj) (w j)
    obtain ⟨l', texts, hall, hlisten⟩ := @Text.listen_call _ (Item.asString t) eprintf _
      (hruns.isNamed fun i hi => hplan.asString hi) hruns.proper hread l
    rw [hruns.ended.length_eq, length_jobsFrom, hverdicts.failures] at hlisten
    refine ⟨l', cs, texts, htold, hruns, hverdicts, hall, by rw [htold, hlisten], ?_⟩
    have hreturn := RunTests.returnValue_eq_zero_iff hr
      ⟨s, hrun.mono fun _ _ _ => trivial, hpc, rfl⟩
    rw [hreturn, toldSince, hcalls, htold, List.length_nil, List.drop_zero, failures_call,
      show failures ([] : List (Callback Item)) = 0 from rfl, Nat.zero_add, hverdicts.failures,
      Nat.dvd_iff_mod_eq_zero]

/-- A file with a setup function and a test. -/
def fileWithTest : List (List Reflected) :=
  [[declaredFunction "set_up" tcSignedInt none, declaredFunction "test_it" tcVoid none]]

/-- One child, which has nothing to tell but that the test passed. -/
def quietRun : List Label :=
  [.fork 100 0, .tau, .write 100 (serialiseMessage (.finished .pass)), .close 100,
    .exit 100 (.exited 0), .poll 0 .ready, .tau, .tau, .tau, .waited 100, .waitNone, .tau, .tau]

theorem quietRun_returns {J : Type} (x : J) :
    (execute Sys.step (fun s l => followsScript 1 [] .pass s l && keepsCalls 1 .pass s l)
      (Sys.start ({} : Runner J) [x]) quietRun).any (fun s => s.pc = .done) = true := by
  rfl

/-- The path of the test. -/
def pathOfTest : List CString := ["t", "a", "it"].map nodeName

/-- It is the only one, and goes well where its functions return zero. -/
theorem ran_fileWithTest :
    (∀ q, (firstAt (declarations fileWithTest) .test q).isSome ↔ q = pathOfTest) ∧
      parametersAlong (declarations fileWithTest) pathOfTest = [] ∧
      (ranAlong (declarations fileWithTest) ⟨fun _ => .returned 0, {}⟩ pathOfTest).events = [] ∧
      (ranAlong (declarations fileWithTest) ⟨fun _ => .returned 0, {}⟩ pathOfTest).result =
        .pass := by
  refine ⟨fun q => ⟨fun hq => ?_, fun hq => ?_⟩, ?_⟩
  · have honly : ∀ d ∈ declarations fileWithTest, (d.2.func? .test).isSome →
        d.1 = pathOfTest := by decide +kernel
    obtain ⟨f, hf⟩ := Option.isSome_iff_exists.mp hq
    obtain ⟨y, hy, hfunc⟩ := List.mem_filterMap.mp (List.mem_of_head? hf)
    obtain ⟨d, hd, rfl⟩ := List.mem_map.mp hy
    obtain ⟨hmem, hpath⟩ := List.mem_filter.mp hd
    rw [← of_decide_eq_true hpath]
    exact honly d hmem (by rw [hfunc]; rfl)
  · rw [hq]
    decide +kernel
  · decide +kernel

theorem discovered_tests_verdicts_file_with_test :
    ∃ h root t above x l' s cs text, testmanagerInstance fileWithTest ⟨1, 2, 3, 4, 5, 6⟩ =
        .ok (h, root) ∧ Represents h root t ∧ Yields t [[]] [x] ∧ pathTo above t x.1 = pathOfTest ∧
      Run Sys.step (fun s l => behaves (fun j => ranAt t ⟨fun _ => .returned 0, {}⟩ j.item.1)
        (fun _ => []) [⟨1, x⟩] s l = true) (Sys.start {} [x]) s ∧
      s.runner.calls = .begin :: (cs ++ [.finish]) ∧
      cs.filterMap Callback.ended? = [(⟨1, x⟩, .pass)] ∧
      Text.listen (Item.asString t) id {} s.runner.calls = some (l',
        CString.ascii "np: running\n" ++ text ++ Text.lastLine 1 0) ∧
      s.runner.returnValue = 0 := by
  obtain ⟨h, root, t, above, items, hinstance, ht, hyields, hplan, hruns⟩ :=
    discovered_tests_verdicts fileWithTest ⟨1, 2, 3, 4, 5, 6⟩ (by decide +kernel)
      fun d hd x hx => by
      have hall : ∀ d ∈ declarations fileWithTest, ∀ x ∈ d.2.parameter?, x.values ≠ [] := by
        decide +kernel
      exact hall d hd x (by rw [hx]; rfl)
  obtain ⟨htests, hparams, hevents, hresult⟩ := ran_fileWithTest
  -- the only item
  have hkeys : ∀ y, y ∈ items.map (fun i => (pathTo above t i.1, i.2)) ↔ y = (pathOfTest, []) := by
    rintro ⟨q, as⟩
    rw [hplan.items_iff, htests, Prod.mk.injEq]
    refine and_congr_right fun hq => ?_
    rw [hq, hparams, List.map_eq_nil_iff, and_iff_left_iff_imp]
    rintro rfl a ha
    cases ha
  have hsingle := (List.perm_ext_iff_of_nodup hplan.once (List.nodup_singleton _)).mpr fun y => by
    rw [hkeys y, List.mem_singleton]
  obtain ⟨x, rfl, hx⟩ := List.map_eq_singleton_iff.mp (List.perm_singleton.mp hsingle)
  obtain ⟨hpath, -⟩ := Prod.mk.inj hx
  -- its child writes what the run needs
  have hran := hplan.ranAt_eq (List.mem_singleton_self x) ⟨fun _ => .returned 0, {}⟩
  rw [hpath] at hran
  obtain ⟨s, hrun, hpc⟩ := Run.of_execute (quietRun_returns x)
  have hbehaves : Run Sys.step (fun s l => behaves
      (fun j : Job Item => ranAt t ⟨fun _ => .returned 0, {}⟩ j.item.1) (fun _ => []) [⟨1, x⟩]
        s l = true)
      (Sys.start {} [x]) s := by
    refine hrun.mono fun u l hstep => ?_
    simpa [behaves, hran, hevents, hresult] using hstep
  have hwrites : ∀ j ∈ jobsFrom 1 [x],
      Writes (ranAt t ⟨fun _ => .returned 0, {}⟩ j.item.1) [] := by
    intro j hj
    obtain rfl := List.mem_singleton.mp hj
    refine ⟨?_, nofun⟩
    rw [hran, hevents]
    exact .nil
  obtain ⟨l', cs, texts, htold, -, hverdicts, -, hlisten, hreturn⟩ :=
    hruns (fun _ => ⟨fun _ => .returned 0, {}⟩) (fun _ => []) {} s {} id (.new 30 1) rfl rfl
      (by decide) (by decide) hwrites hbehaves (of_decide_eq_true hpc)
  refine ⟨h, root, t, above, x, l', s, cs, texts.flatten, hinstance, ht, hyields, hpath, hbehaves,
    htold, ?_, ?_, ?_⟩
  · have hended := hverdicts.ended
    simp only [jobsFrom, List.map_cons, List.map_nil, hpath, hresult] at hended
    exact List.perm_singleton.mp hended
  · simpa [failing, jobsFrom, hpath, hresult] using hlisten
  · rw [hreturn]
    simp [failing, jobsFrom, hpath, hresult]

end NovaProva
