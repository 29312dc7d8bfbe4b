import NovaProva.Lib.MapOfMaps
import NovaProva.Runner.Returned
import NovaProva.Tree.Jobs

/-!
# Runner — Junit

`np/junit_listener.cxx`: the listener that writes a report.  It keeps a case for each job it is told
of, in the suite named like the parent of the job's node, and knows the job by its text only: the
name of the suite is looked for in the name of the job, and the case is what comes behind it and one
more character.

* `findCase`, `handle`, `listen`, `report`: the code.
* `findCase_eq`: what the search comes to, for all trees.
* `get_listen`: what is in a case after any calls.
* `reports_iff`: when each job has a case of its own, whatever order the calls come in.
* `report_of_run_iff`: the same of every run of `run_tests`.

The listener is never cleared, so that a run adds to the cases of those before it.  Elapsed times
and captured output are left out, and the order in which `std::map` is gone through.
-/

namespace NovaProva

namespace Junit

/-! ### The listener -/

/-- The name of a suite, and the name of a case in it. -/
abbrev Key := List UInt8 × List UInt8

/-- `case_t`. -/
structure Case where
  result : Result := .unknown
  event : Option Event := none
  deriving DecidableEq

/-- `suites_`. -/
abbrev Suites := MapOfMaps (List UInt8) (List UInt8) Case

/-- Why a case is not found. -/
inductive CaseFault where
  /-- the node has no parent, and a null pointer is followed -/
  | null
  /-- a value is read that is not there -/
  | value
  /-- `std::out_of_range` is thrown -/
  | range
  deriving DecidableEq

/-- `string::find`: where `t` is first in `s`. -/
def indexOf (s t : List UInt8) : Option Nat :=
  (List.range (s.length + 1)).find? fun i => t.isPrefixOf (s.drop i)

/-- `find_case`, to the keys of the case.  The place `npos` is converted to the `int` `-1`. -/
def findCase (root : TestNode) (job : Item) : Except CaseFault Key :=
  match job.1 with
  | []      => .error .null
  | _ :: up =>
    let suitename := getFullname (root.chain up)
    match Item.asString root job with
    | none         => .error .value
    | some jobname =>
      let pos := match indexOf jobname suitename with
        | some off => off + suitename.length + 1
        | none     => suitename.length
      if jobname.length < pos then .error .range else .ok (suitename, jobname.drop pos)

/-- `add_event`, on the case. -/
def Case.addEvent (ev : Event) (c : Case) : Case :=
  if ev.getResult = .fail ∧ c.event = none then { c with event := some ev } else c

/-- `end_job`, on the case. -/
def Case.endJob (res : Result) (c : Case) : Case := { c with result := res }

/-- The case of a job is changed, once it is found. -/
def change (root : TestNode) (suites : Suites) (job : Item) (f : Case → Case) :
    Except CaseFault Suites :=
  match findCase root job with
  | .error e => .error e
  | .ok key  => .ok (suites.modify {} key f)

/-- What the listener does when it is told something. -/
def handle (root : TestNode) (suites : Suites) : Callback Item → Except CaseFault Suites
  | .addEvent j ev => change root suites j.item (Case.addEvent ev)
  | .endJob j res  => change root suites j.item (Case.endJob res)
  | _              => .ok suites

/-- All calls of a run, one after the other.  `begin` does nothing, so the listener goes on from the
cases that it holds of earlier runs. -/
def listen (root : TestNode) (suites : Suites) (calls : List (Callback Item)) :
    Except CaseFault Suites :=
  calls.foldlM (handle root) suites

/-- What `end` writes about a suite. -/
structure SuiteReport where
  name : List UInt8
  tests : Nat
  errors : Nat
  testcases : List (List UInt8 × Option Event)

/-- `end`. -/
def report (suites : Suites) : List SuiteReport :=
  suites.entries.map fun suite => {
    name := suite.1
    tests := suite.2.entries.length
    errors := suite.2.entries.countP fun c => c.2.result = .fail
    testcases := suite.2.entries.map fun c => (c.1, c.2.event) }

/-! ### What the search comes to -/

/-- The text of a node's own name. -/
def ownName (root : TestNode) (p : Ptr) : List UInt8 :=
  (((root.at? p).bind fun a => a.data.name).map CString.bytes).getD []

/-- The own name of a job's node and the values of the job. -/
def shown (root : TestNode) (job : Item) : List UInt8 :=
  ownName root job.1 ++ job.2.flatMap fun a => bracketed a.param (a.value.getD .empty)

/-- The full name of the parent of a job's node. -/
def suiteName (root : TestNode) (job : Item) : List UInt8 := getFullname (root.chain job.1.tail)

/-- What is left of `shown` for the case.  Behind a parent without a name there is no dot, and the
first character goes in its place. -/
def caseName (root : TestNode) (job : Item) : List UInt8 :=
  if Named root job.1.tail then shown root job else (shown root job).tail

theorem foldl_prependName_append (up : List NodeData) (full : List UInt8) :
    up.foldl prependName full = up.foldl prependName [] ++ full := by
  induction up generalizing full with
  | nil => simp
  | cons a up ih =>
    rw [List.foldl_cons, List.foldl_cons, ih, ih (prependName [] a)]
    cases hname : a.name with
    | none => simp [prependName, hname]
    | some n => simp [prependName, hname]

/-- The full name of a node begins with that of its parent. -/
theorem getFullname_child {root : TestNode} {i : Nat} {up : Ptr}
    (h : (root.at? (i :: up)).isSome) :
    getFullname (root.chain (i :: up)) = getFullname (root.chain up) ++
      ((if Named root up then [Filename.dot] else []) ++ ownName root (i :: up)) := by
  obtain ⟨t, ht⟩ := Option.isSome_iff_exists.mp h
  obtain ⟨parent, hparent⟩ : ∃ parent, root.at? up = some parent := by
    rw [TestNode.at?] at ht
    obtain ⟨parent, hparent, -⟩ := Option.bind_eq_some_iff.mp ht
    exact ⟨parent, hparent⟩
  obtain ⟨rest, hrest⟩ := chain_eq hparent
  have hchain : root.chain (i :: up) = t.data :: parent.data :: rest := by
    simp [TestNode.chain, ht, hrest]
  rw [hchain, hrest, getFullname, getFullname, List.foldl_cons, foldl_prependName_append,
    foldl_prependName_append rest ((parent.data.name.map CString.bytes).getD [])]
  cases hname : parent.data.name with
  | none => simp [prependName, hname, Named, hparent, ownName, ht]
  | some n => simp [prependName, hname, Named, hparent, ownName, ht]

theorem indexOf_append (s t : List UInt8) : indexOf (s ++ t) s = some 0 := by
  rw [indexOf, List.range_succ_eq_map, List.find?_cons_of_pos]
  simp

/-- A node with a test function, and an index for each parameter that is in range if it can be. -/
structure IsJob (root : TestNode) (job : Item) : Prop where
  test : root.testable job.1 = true
  params : job.2.map (·.param) = root.parameters job.1
  range : ∀ a ∈ job.2, InRange a

theorem isJob_of_produced {root : TestNode} {nodes : List root.Node} {job : Item}
    (h : Produced root (nodes.map (·.1)) job) : IsJob root job := by
  cases nodes with
  | nil =>
    obtain ⟨it, hr, hend, -⟩ := h
    rw [hr.isEnd_of_nil] at hend
    cases hend
  | cons n rest =>
    obtain ⟨t, ht⟩ := Option.isSome_iff_exists.mp n.2
    obtain ⟨-, htest, hparams, hrange⟩ := h.spec ht
    exact ⟨htest, hparams, hrange⟩

section
variable {root : TestNode} {job : Item}

theorem IsJob.isSome (h : IsJob root job) : (root.at? job.1).isSome := by
  have htest := h.test
  cases hat : root.at? job.1 with
  | none => simp [TestNode.testable, hat] at htest
  | some t => rfl

/-- The values are there when the parameters have some. -/
theorem IsJob.values_iff (h : IsJob root job) :
    (∀ a ∈ job.2, a.value.isSome) ↔ ∀ q ∈ root.parameters job.1, q.values ≠ [] := by
  rw [← h.params, List.forall_mem_map]
  refine forall₂_congr fun a ha => ?_
  constructor
  · intro hsome hnil
    simp [Assignment.value, hnil] at hsome
  · intro hne
    have hlt := (h.range a ha).resolve_right fun hr => hne hr.1
    simp [Assignment.value, hlt]

theorem foldlM_appendAssignment_isSome (as : List Assignment) (s : List UInt8) :
    (as.foldlM Item.appendAssignment s).isSome ↔ ∀ a ∈ as, a.value.isSome := by
  induction as generalizing s with
  | nil => simp
  | cons a as ih =>
    cases hv : a.value with
    | none => simp [Item.appendAssignment, Assignment.asString, hv]
    | some v => simp [Item.appendAssignment, Assignment.asString, hv, ih]

/-- The name of a job is that of its suite, a dot if the suite has a name, and what is shown. -/
theorem IsJob.asString_eq (h : IsJob root job) (hparent : job.1 ≠ [])
    (hvalues : ∀ a ∈ job.2, a.value.isSome) :
    Item.asString root job = some (suiteName root job ++
      ((if Named root job.1.tail then [Filename.dot] else []) ++ shown root job)) := by
  obtain ⟨p, as⟩ := job
  obtain ⟨i, up, rfl⟩ := List.exists_cons_of_ne_nil hparent
  have hfull := getFullname_child h.isSome
  by_cases hup : Named root up
  · simp [Item.asString, foldlM_appendAssignment hvalues, hfull, suiteName, shown, hup]
  · simp [Item.asString, foldlM_appendAssignment hvalues, hfull, suiteName, shown, hup]

/-- **The case of a job**: its node's own name with its values. -/
theorem IsJob.findCase_eq (h : IsJob root job) (hparent : job.1 ≠ [])
    (hvalues : ∀ a ∈ job.2, a.value.isSome)
    (hnamed : Named root job.1.tail ∨ shown root job ≠ []) :
    findCase root job = .ok (suiteName root job, caseName root job) := by
  have hname := h.asString_eq hparent hvalues
  obtain ⟨p, as⟩ := job
  obtain ⟨i, up, rfl⟩ := List.exists_cons_of_ne_nil hparent
  rw [findCase, hname]
  have hsuite : getFullname (root.chain up) = suiteName root (i :: up, as) := rfl
  simp only [hsuite, indexOf_append, List.length_append, Nat.zero_add]
  rw [if_neg, List.drop_append]
  · by_cases hup : Named root up
    · simp [caseName, hup]
    · simp [caseName, hup]
  · by_cases hup : Named root up
    · simp [hup]
    · have hpos : 0 < (shown root (i :: up, as)).length :=
        List.length_pos_iff.mpr (hnamed.resolve_left hup)
      simp only [List.tail_cons, hup, if_false, List.length_nil, Nat.zero_add, not_lt]
      exact Nat.add_le_add_left hpos _

/-- When the case of a job is found. -/
theorem IsJob.findCase_ok (h : IsJob root job) {key : Key} (hkey : findCase root job = .ok key) :
    job.1 ≠ [] ∧ (∀ a ∈ job.2, a.value.isSome) ∧
      (Named root job.1.tail ∨ shown root job ≠ []) := by
  have hparent : job.1 ≠ [] := by
    intro hnil
    simp [findCase, hnil] at hkey
  have hvalues : ∀ a ∈ job.2, a.value.isSome := by
    rw [← foldlM_appendAssignment_isSome job.2 (getFullname (root.chain job.1))]
    rw [findCase] at hkey
    cases hname : Item.asString root job with
    | none =>
      rw [hname] at hkey
      cases hp : job.1 <;> simp [hp] at hkey
    | some jobname => simpa [Item.asString] using congrArg Option.isSome hname
  refine ⟨hparent, hvalues, ?_⟩
  by_contra hno
  obtain ⟨hup, hshown⟩ := not_or.mp hno
  have hname := h.asString_eq hparent hvalues
  obtain ⟨p, as⟩ := job
  obtain ⟨i, up, rfl⟩ := List.exists_cons_of_ne_nil hparent
  have hup : ¬ Named root up := hup
  have hsuite : getFullname (root.chain up) = suiteName root (i :: up, as) := rfl
  have hindex := indexOf_append (suiteName root (i :: up, as)) []
  rw [List.append_nil] at hindex
  simp [findCase, hname, hsuite, hup, not_not.mp hshown, hindex] at hkey

end

/-! ### What is in the cases -/

/-- Every job was ended once, and no event is of another job. -/
structure Complete (jobs : List (Job Item)) (calls : List (Callback Item)) : Prop where
  ended : (endedJobs calls).Perm jobs
  event : ∀ j ev, .addEvent j ev ∈ calls → j ∈ jobs

/-- The job a call is about, and what is done to its case. -/
def told : Callback Item → Option (Job Item × (Case → Case))
  | .addEvent j ev => some (j, Case.addEvent ev)
  | .endJob j res  => some (j, Case.endJob res)
  | _              => none

/-- The case under a key, after one more call. -/
def stepCase (mine : Job Item → Bool) (c : Option Case) (cb : Callback Item) : Option Case :=
  match told cb with
  | none   => c
  | some t => if mine t.1 then some (t.2 (c.getD {})) else c

/-- The failing event of a job a call brings. -/
def failing (j : Job Item) : Callback Item → Option Event
  | .addEvent k ev => if k = j ∧ ev.getResult = .fail then some ev else none
  | _              => none

/-- The first failing event of a job. -/
def firstFailure (j : Job Item) (calls : List (Callback Item)) : Option Event :=
  calls.findSome? (failing j)

/-- The result of a job, after one more call. -/
def stepResult (j : Job Item) (res : Result) : Callback Item → Result
  | .endJob k res' => if k = j then res' else res
  | _              => res

theorem handle_eq (root : TestNode) (suites : Suites) (cb : Callback Item) :
    handle root suites cb = match told cb with
      | none   => .ok suites
      | some t => change root suites t.1.item t.2 := by
  cases cb <;> rfl

section
variable {root : TestNode} {jobs : List (Job Item)} {calls : List (Callback Item)}

/-- What a job's case holds after all its calls. -/
theorem foldl_stepCase (j : Job Item) (c : Option Case) :
    (calls.foldl (stepCase (· = j)) c).getD {} =
      { result := calls.foldl (stepResult j) (c.getD {}).result
        event := (c.getD {}).event.or (firstFailure j calls) } := by
  induction calls generalizing c with
  | nil => simp [firstFailure]
  | cons cb calls ih =>
    rw [List.foldl_cons, ih, List.foldl_cons, firstFailure, firstFailure, List.findSome?_cons]
    cases cb with
    | addEvent k ev =>
      by_cases hk : k = j
      · by_cases hev : ev.getResult = .fail
        · cases hc : (c.getD {}).event with
          | none => simp [stepCase, told, stepResult, failing, hk, hev, Case.addEvent, hc]
          | some e => simp [stepCase, told, stepResult, failing, hk, hev, Case.addEvent, hc]
        · simp [stepCase, told, stepResult, failing, hk, hev, Case.addEvent]
      · simp [stepCase, told, stepResult, failing, hk]
    | endJob k res =>
      by_cases hk : k = j
      · simp [stepCase, told, stepResult, failing, hk, Case.endJob]
      · simp [stepCase, told, stepResult, failing, hk]
    | begin => simp [stepCase, told, stepResult, failing]
    | finish => simp [stepCase, told, stepResult, failing]
    | beginJob k => simp [stepCase, told, stepResult, failing]

theorem isSome_foldl_stepCase {j : Job Item} (hj : j ∈ endedJobs calls) (c : Option Case) :
    (calls.foldl (stepCase (· = j)) c).isSome := by
  have hkeeps : ∀ (calls : List (Callback Item)) (c : Option Case), c.isSome →
      (calls.foldl (stepCase (· = j)) c).isSome := by
    intro calls
    induction calls with
    | nil => exact fun c hc => hc
    | cons cb calls ih =>
      intro c hc
      refine ih _ ?_
      rw [stepCase]
      split
      · exact hc
      · split
        · rfl
        · exact hc
  induction calls generalizing c with
  | nil => cases hj
  | cons cb calls ih =>
    have hsplit : endedJobs (cb :: calls) = endedJobs [cb] ++ endedJobs calls :=
      endedJobs_append [cb] calls
    rw [hsplit, List.mem_append] at hj
    rcases hj with hj | hj
    · refine hkeeps calls _ ?_
      cases cb <;> simp [endedJobs] at hj
      simp [stepCase, told, hj]
    · exact ih hj _

/-! ### Results -/

/-- The jobs that were ended, with their results. -/
def endings (calls : List (Callback Item)) : List (Job Item × Result) :=
  calls.filterMap fun | .endJob j res => some (j, res) | _ => none

theorem map_endings (calls : List (Callback Item)) :
    (endings calls).map (·.1) = endedJobs calls := by
  rw [endings, endedJobs, List.map_filterMap]
  refine List.filterMap_congr fun cb _ => ?_
  cases cb <;> rfl

theorem failures_eq (calls : List (Callback Item)) :
    failures calls = (endings calls).countP fun e => e.2 = .fail := by
  rw [failures, endings, List.countP_filterMap]
  refine List.countP_congr fun cb _ => ?_
  cases cb with
  | endJob j res => cases res <;> simp [Callback.isFailure]
  | begin => simp [Callback.isFailure]
  | finish => simp [Callback.isFailure]
  | beginJob j => simp [Callback.isFailure]
  | addEvent j ev => simp [Callback.isFailure]

theorem foldl_stepResult (j : Job Item) (res : Result) :
    calls.foldl (stepResult j) res =
      (endings calls).foldl (fun res e => if e.1 = j then e.2 else res) res := by
  induction calls generalizing res with
  | nil => rfl
  | cons cb calls ih =>
    rw [List.foldl_cons, ih]
    cases cb <;> rfl

/-- A job that is ended once has the result it was ended with. -/
theorem foldl_ending {es : List (Job Item × Result)} (hnodup : (es.map (·.1)).Nodup)
    {j : Job Item} {res : Result} (hmem : (j, res) ∈ es) (start : Result) :
    es.foldl (fun res e => if e.1 = j then e.2 else res) start = res := by
  have hother : ∀ (es : List (Job Item × Result)) (start : Result), j ∉ es.map (·.1) →
      es.foldl (fun res e => if e.1 = j then e.2 else res) start = start := by
    intro es
    induction es with
    | nil => exact fun _ _ => rfl
    | cons e es ih =>
      intro start hj
      obtain ⟨hne, hj⟩ := not_or.mp (mt List.mem_cons.mpr hj)
      rw [List.foldl_cons, if_neg (Ne.symm hne), ih start hj]
  induction es generalizing start with
  | nil => cases hmem
  | cons e es ih =>
    obtain ⟨hnot, hnodup⟩ := List.nodup_cons.mp hnodup
    rw [List.foldl_cons]
    rcases List.mem_cons.mp hmem with rfl | hmem
    · rw [if_pos rfl, hother es _ hnot]
    · exact ih hnodup hmem _

/-- The failures are those of the jobs. -/
theorem failures_eq_countP (h : (endedJobs calls).Perm jobs) (hnodup : jobs.Nodup) :
    failures calls =
      jobs.countP fun j => calls.foldl (stepResult j) Result.unknown = Result.fail := by
  have hfirst : ((endings calls).map (·.1)).Nodup := by
    rw [map_endings]
    exact h.nodup_iff.mpr hnodup
  rw [failures_eq, ← h.countP_eq, ← map_endings, List.countP_map]
  refine List.countP_congr fun e he => ?_
  simp [foldl_stepResult, foldl_ending hfirst he]

/-! ### The report -/

/-- The keys the search comes to. -/
def key (root : TestNode) (j : Job Item) : Key := (suiteName root j.item, caseName root j.item)

/-- The jobs of the calls have cases of their own. -/
structure Apart (root : TestNode) (jobs : List (Job Item)) (calls : List (Callback Item)) :
    Prop where
  found : ∀ j ∈ jobs, findCase root j.item = .ok (key root j)
  apart : ∀ j ∈ jobs, ∀ k ∈ jobs, key root j = key root k → j = k
  mem : ∀ cb ∈ calls, ∀ t, told cb = some t → t.1 ∈ jobs

theorem Complete.mem (h : Complete jobs calls) :
    ∀ cb ∈ calls, ∀ t, told cb = some t → t.1 ∈ jobs := by
  intro cb hcb t ht
  cases cb with
  | addEvent j ev =>
    cases ht
    exact h.event j ev hcb
  | endJob j res =>
    cases ht
    refine h.ended.subset ?_
    exact List.mem_filterMap.mpr ⟨_, hcb, rfl⟩
  | begin => cases ht
  | finish => cases ht
  | beginJob j => cases ht

/-- **What the listener holds** after the calls: nothing but the cases of the jobs, each as the
calls of its own job left it. -/
theorem Apart.foldlM_handle (h : Apart root jobs calls) (suites : Suites) :
    ∃ suites', calls.foldlM (handle root) suites = .ok suites' ∧
      (∀ j ∈ jobs, suites'.get (key root j) =
        calls.foldl (stepCase (· = j)) (suites.get (key root j))) ∧
      ∀ k, (∀ j ∈ jobs, key root j ≠ k) → suites'.get k = suites.get k := by
  induction calls generalizing suites with
  | nil => exact ⟨suites, rfl, fun _ _ => rfl, fun _ _ => rfl⟩
  | cons cb calls ih =>
    have hmem := List.forall_mem_cons.mp h.mem
    have ih := ih ⟨h.found, h.apart, hmem.2⟩
    cases ht : told cb with
    | none =>
      have hhandle : handle root suites cb = .ok suites := by rw [handle_eq, ht]
      obtain ⟨suites', hrun, hjobs, hrest⟩ := ih suites
      refine ⟨suites', by simp [hhandle, hrun, bind, Except.bind], ?_, hrest⟩
      intro j hj
      rw [hjobs j hj, List.foldl_cons, stepCase, ht]
    | some t =>
      have htold := hmem.1 t ht
      have hhandle : handle root suites cb = .ok (suites.modify {} (key root t.1) t.2) := by
        simp only [handle_eq, ht, change, h.found t.1 htold]
      obtain ⟨suites', hrun, hjobs, hrest⟩ := ih (suites.modify {} (key root t.1) t.2)
      refine ⟨suites', by simp [hhandle, hrun, bind, Except.bind], ?_, ?_⟩
      · intro j hj
        rw [hjobs j hj, List.foldl_cons, stepCase, ht]
        by_cases htj : t.1 = j
        · subst htj
          simp [MapOfMaps.get_modify_self]
        · have hne : key root j ≠ key root t.1 := fun he => htj (h.apart _ htold _ hj he.symm)
          simp [MapOfMaps.get_modify_ne _ _ _ hne, htj]
      · intro k hk
        rw [hrest k hk, MapOfMaps.get_modify_ne _ _ _ (hk t.1 htold).symm]

/-- The testcases of the report, under the names of their suite and their own. -/
def testcases (suites : Suites) : List (Key × Option Event) :=
  (report suites).flatMap fun s => s.testcases.map fun c => ((s.name, c.1), c.2)

theorem testcases_eq (suites : Suites) :
    testcases suites = suites.cells.map fun c => (c.1, c.2.event) := by
  simp [testcases, report, MapOfMaps.cells, List.flatMap_map, List.map_flatMap,
    Function.comp_def]

theorem sum_tests (suites : Suites) :
    ((report suites).map (·.tests)).sum = suites.cells.length := by
  simp [report, MapOfMaps.cells, List.length_flatMap, Function.comp_def]

theorem sum_errors (suites : Suites) :
    ((report suites).map (·.errors)).sum =
      suites.cells.countP fun c => c.2.result = Result.fail := by
  simp [report, MapOfMaps.cells, List.countP_flatMap, List.countP_map, Function.comp_def]

/-- The report of a run: one testcase for each job, with the first failing event of that job, and
numbers that are those of the run. -/
structure OneCaseEach (root : TestNode) (jobs : List (Job Item)) (calls : List (Callback Item))
    (suites : Suites) : Prop where
  apart : ∀ j ∈ jobs, ∀ k ∈ jobs, findCase root j.item = findCase root k.item → j = k
  cases : ∃ key : Job Item → Key, (∀ j ∈ jobs, findCase root j.item = .ok (key j)) ∧
    (testcases suites).Perm (jobs.map fun j => (key j, firstFailure j calls))
  tests : ((report suites).map (·.tests)).sum = jobs.length
  errors : ((report suites).map (·.errors)).sum = failures calls

/-- The listener comes to its end with such a report, from the cases that it held before the run. -/
def Reports (root : TestNode) (before : Suites) (jobs : List (Job Item))
    (calls : List (Callback Item)) : Prop :=
  ∃ suites, listen root before calls = .ok suites ∧ OneCaseEach root jobs calls suites

/-- What the listener holds before the run is of jobs of the run only, and an event in it is the one
that the job raises first. -/
def Harmless (root : TestNode) (before : Suites) (jobs : List (Job Item))
    (calls : List (Callback Item)) : Prop :=
  ∀ k c, before.get k = some c → ∃ j ∈ jobs, findCase root j.item = .ok k ∧
    (c.event = none ∨ c.event = firstFailure j calls)

/-- The jobs can be told apart by their texts. -/
structure Distinguished (root : TestNode) (items : List Item) : Prop where
  parent : ∀ job ∈ items, job.1 ≠ []
  values : ∀ job ∈ items, ∀ q ∈ root.parameters job.1, q.values ≠ []
  named : ∀ job ∈ items, Named root job.1.tail ∨ shown root job ≠ []
  distinct : ∀ job ∈ items, ∀ job' ∈ items, job ≠ job' →
    suiteName root job = suiteName root job' → caseName root job ≠ caseName root job'

/-- A job that was ended has its own result, whatever the case held before. -/
theorem foldl_stepResult_start (hended : (endedJobs calls).Perm jobs) (hnodup : jobs.Nodup)
    {j : Job Item} (hj : j ∈ jobs) (res res' : Result) :
    calls.foldl (stepResult j) res = calls.foldl (stepResult j) res' := by
  have hfirst : ((endings calls).map (·.1)).Nodup := by
    rw [map_endings]
    exact hended.nodup_iff.mpr hnodup
  obtain ⟨e, he, rfl⟩ : ∃ e ∈ endings calls, e.1 = j := by
    have hmem := hended.symm.subset hj
    rw [← map_endings] at hmem
    exact List.mem_map.mp hmem
  rw [foldl_stepResult, foldl_stepResult, foldl_ending hfirst he, foldl_ending hfirst he]

/-- The case of a job after the run, as it would be without earlier runs. -/
def caseOf (calls : List (Callback Item)) (j : Job Item) : Case :=
  ⟨calls.foldl (stepResult j) .unknown, firstFailure j calls⟩

/-- After the run a job's case has its own result; its event is its own too if there was none
before. -/
theorem get_of_told (hnodup : jobs.Nodup) (hcalls : Complete jobs calls) {before suites : Suites}
    (hjobs : ∀ j ∈ jobs, suites.get (key root j) =
      calls.foldl (stepCase (· = j)) (before.get (key root j))) {j : Job Item} (hj : j ∈ jobs) :
    suites.get (key root j) = some { caseOf calls j with
      event := ((before.get (key root j)).getD {}).event.or (firstFailure j calls) } := by
  have hsome := isSome_foldl_stepCase (hcalls.ended.symm.subset hj) (before.get (key root j))
  obtain ⟨c, hc⟩ := Option.isSome_iff_exists.mp hsome
  have hfold : (calls.foldl (stepCase (· = j)) (before.get (key root j))).getD {} = _ :=
    foldl_stepCase j (before.get (key root j))
  rw [hc, Option.getD_some, foldl_stepResult_start hcalls.ended hnodup hj _ .unknown] at hfold
  rw [hjobs j hj, hc, hfold, caseOf]

/-- The cells of the cases the jobs have, when there are no others. -/
theorem Apart.cells_perm (h : Apart root jobs calls) (hnodup : jobs.Nodup) {suites : Suites}
    (hcase : ∀ j ∈ jobs, suites.get (key root j) = some (caseOf calls j))
    (honly : ∀ k, (∀ j ∈ jobs, key root j ≠ k) → suites.get k = none) :
    suites.cells.Perm (jobs.map fun j => (key root j, caseOf calls j)) := by
  have hinj : ∀ j ∈ jobs, ∀ k ∈ jobs,
      (key root j, caseOf calls j) = (key root k, caseOf calls k) → j = k := by
    intro j hj k hk he
    exact h.apart j hj k hk (Prod.mk.inj he).1
  refine (List.perm_ext_iff_of_nodup suites.nodup_cells.of_map (hnodup.map_on hinj)).mpr ?_
  rintro ⟨k, v⟩
  rw [MapOfMaps.mem_cells, List.mem_map]
  constructor
  · intro hget
    by_contra hno
    have hother : ∀ j ∈ jobs, key root j ≠ k := by
      rintro j hj rfl
      exact hno ⟨j, hj, by rw [Option.some.inj ((hcase j hj).symm.trans hget)]⟩
    cases (honly k hother).symm.trans hget
  · rintro ⟨j, hj, he⟩
    cases he
    exact hcase j hj

/-- What is in a cell after a run that is reported as it should be is a testcase, and so a job's. -/
theorem Apart.cell (h : Apart root jobs calls) {suites : Suites}
    (hreport : OneCaseEach root jobs calls suites) {k : Key} {v : Case}
    (hv : suites.get k = some v) : ∃ j ∈ jobs, key root j = k ∧ v.event = firstFailure j calls := by
  obtain ⟨key', hkey', hcases⟩ := hreport.cases
  have hmem : (k, v.event) ∈ testcases suites := by
    rw [testcases_eq]
    exact List.mem_map.mpr ⟨(k, v), MapOfMaps.mem_cells.mpr hv, rfl⟩
  obtain ⟨j, hj, he⟩ := List.mem_map.mp (hcases.subset hmem)
  obtain ⟨hk, hev⟩ := Prod.mk.inj he
  have hsame : key' j = key root j := Except.ok.inj ((hkey' j hj).symm.trans (h.found j hj))
  exact ⟨j, hj, hsame.symm.trans hk, hev.symm⟩

/-- The cases the jobs have, when there are no others, are the report there should be. -/
theorem Apart.oneCaseEach (h : Apart root jobs calls) (hnodup : jobs.Nodup)
    (hcalls : Complete jobs calls) {suites : Suites}
    (hcase : ∀ j ∈ jobs, suites.get (key root j) = some (caseOf calls j))
    (honly : ∀ k, (∀ j ∈ jobs, key root j ≠ k) → suites.get k = none) :
    OneCaseEach root jobs calls suites := by
  have hcells := h.cells_perm hnodup hcase honly
  refine ⟨?_, ⟨key root, h.found, ?_⟩, ?_, ?_⟩
  · intro j hj k hk he
    rw [h.found j hj, h.found k hk] at he
    exact h.apart j hj k hk (Except.ok.inj he)
  · rw [testcases_eq]
    have hmap := hcells.map fun c => (c.1, c.2.event)
    rwa [List.map_map] at hmap
  · rw [sum_tests, hcells.length_eq, List.length_map]
  · rw [sum_errors, hcells.countP_eq, List.countP_map, failures_eq_countP hcalls.ended hnodup]
    rfl

/-- Jobs that have cases of their own are reported as they should be unless an earlier run is in the
way. -/
theorem Apart.reports_iff (h : Apart root jobs calls) (hnodup : jobs.Nodup)
    (hcalls : Complete jobs calls) (before : Suites) :
    Reports root before jobs calls ↔ Harmless root before jobs calls := by
  obtain ⟨suites, hrun, hjobs, hrest⟩ := h.foldlM_handle before
  have hget : ∀ j ∈ jobs, suites.get (key root j) = some { caseOf calls j with
      event := ((before.get (key root j)).getD {}).event.or (firstFailure j calls) } :=
    fun j hj => get_of_told hnodup hcalls hjobs hj
  constructor
  · rintro ⟨suites', hrun', hreport⟩ k c hc
    obtain rfl := Except.ok.inj (hrun.symm.trans hrun')
    obtain ⟨j, hj, rfl⟩ : ∃ j ∈ jobs, key root j = k := by
      by_contra hno
      have hother : ∀ j ∈ jobs, key root j ≠ k := fun j hj he => hno ⟨j, hj, he⟩
      obtain ⟨j, hj, he, -⟩ := h.cell hreport ((hrest k hother).trans hc)
      exact hother j hj he
    obtain ⟨j', hj', he, hevent⟩ := h.cell hreport (hget j hj)
    obtain rfl := h.apart j' hj' j hj he
    refine ⟨j', hj', h.found j' hj', ?_⟩
    rw [hc] at hevent
    cases hcev : c.event with
    | none => exact .inl rfl
    | some e => exact .inr (by simpa [hcev] using hevent)
  · intro hharmless
    refine ⟨suites, hrun, h.oneCaseEach hnodup hcalls ?_ ?_⟩
    · intro j hj
      rw [hget j hj]
      cases hc : before.get (key root j) with
      | none => simp [caseOf]
      | some c =>
        obtain ⟨j', hj', he, hevent⟩ := hharmless _ c hc
        obtain rfl := h.apart j' hj' j hj (Except.ok.inj ((h.found j' hj').symm.trans he))
        rcases hevent with hevent | hevent
        · simp [caseOf, hevent]
        · cases hf : firstFailure j' calls <;> simp [caseOf, hevent, hf]
    · intro k hk
      rw [hrest k hk, Option.eq_none_iff_forall_not_mem]
      intro c hc
      obtain ⟨j, hj, he, -⟩ := hharmless k c hc
      exact hk j hj (Except.ok.inj ((h.found j hj).symm.trans he))

/-- Jobs that are reported have different texts. -/
theorem Reports.distinguished {before : Suites} (h : Reports root before jobs calls)
    (hjobs : ∀ j ∈ jobs, IsJob root j.item) : Distinguished root (jobs.map (·.item)) := by
  obtain ⟨suites, -, hreport⟩ := h
  obtain ⟨key', hkey, -⟩ := hreport.cases
  have hok : ∀ j ∈ jobs, _ := fun j hj => (hjobs j hj).findCase_ok (hkey j hj)
  refine ⟨?_, ?_, ?_, ?_⟩
  · exact List.forall_mem_map.mpr fun j hj => (hok j hj).1
  · exact List.forall_mem_map.mpr fun j hj => (hjobs j hj).values_iff.mp (hok j hj).2.1
  · exact List.forall_mem_map.mpr fun j hj => (hok j hj).2.2
  · refine List.forall_mem_map.mpr fun j hj => List.forall_mem_map.mpr fun k hk => ?_
    intro hne hsuite hcase
    have hj' := (hjobs j hj).findCase_eq (hok j hj).1 (hok j hj).2.1 (hok j hj).2.2
    have hk' := (hjobs k hk).findCase_eq (hok k hk).1 (hok k hk).2.1 (hok k hk).2.2
    rw [hsuite, hcase, ← hk'] at hj'
    exact hne (by rw [hreport.apart j hj k hk hj'])

/-- Jobs with different texts have cases of their own. -/
theorem Distinguished.apart (hd : Distinguished root (jobs.map (·.item)))
    (hjobs : ∀ j ∈ jobs, IsJob root j.item) (hnodup : (jobs.map (·.item)).Nodup)
    (hcalls : Complete jobs calls) : Apart root jobs calls := by
  refine ⟨fun j hj => ?_, fun j hj k hk he => ?_, hcalls.mem⟩
  · have hmem := List.mem_map_of_mem (f := Job.item) hj
    exact (hjobs j hj).findCase_eq (hd.parent _ hmem)
      ((hjobs j hj).values_iff.mpr (hd.values _ hmem)) (hd.named _ hmem)
  · refine List.inj_on_of_nodup_map hnodup hj hk ?_
    by_contra hne
    obtain ⟨hsuite, hcase⟩ := Prod.mk.inj he
    exact hd.distinct _ (List.mem_map_of_mem (f := Job.item) hj) _
      (List.mem_map_of_mem (f := Job.item) hk) hne hsuite hcase

/-- **When each job has a testcase of its own**, whatever calls the listener is told. -/
theorem reports_iff (hjobs : ∀ j ∈ jobs, IsJob root j.item)
    (hnodup : (jobs.map (·.item)).Nodup) (hcalls : Complete jobs calls) (before : Suites) :
    Reports root before jobs calls ↔
      Distinguished root (jobs.map (·.item)) ∧ Harmless root before jobs calls := by
  constructor
  · intro hreports
    have hd := hreports.distinguished hjobs
    exact ⟨hd, ((hd.apart hjobs hnodup hcalls).reports_iff hnodup.of_map hcalls before).mp hreports⟩
  · rintro ⟨hd, hharmless⟩
    exact ((hd.apart hjobs hnodup hcalls).reports_iff hnodup.of_map hcalls before).mpr hharmless

end

/-! ### The calls of a run -/

/-- What `run_tests` tells its listeners when no child is miscounted is complete. -/
theorem complete_of_told {r : Runner Item} {plan : List Item} {s : Sys Item}
    {calls : List (Callback Item)} (htold : Told r plan s calls) (hcounted : Counted r plan s)
    (hdone : s.pc = .done) : Complete (jobsFrom r.nextId plan) calls := by
  have hcounts := hcounted.counts
  rw [hdone] at hcounts
  obtain ⟨hchildren, htodo⟩ := hcounts
  refine ⟨?_, ?_⟩
  · have hjobs := hcounted.jobs
    rw [htold.calls, hchildren, htodo, if_pos hdone] at hjobs
    have hsplit : endedJobs (r.calls ++ .begin :: (calls ++ [.finish])) =
        endedJobs r.calls ++ endedJobs calls := by
      simp [endedJobs]
    rw [hsplit] at hjobs
    simpa [jobsFrom, List.perm_append_left_iff] using hjobs
  · intro j ev hmem
    have hbegun := htold.begun (by simp [hdone])
    rw [htodo, jobsFrom, List.append_nil] at hbegun
    obtain ⟨pre, post, hsplit⟩ := List.append_of_mem hmem
    have hpre := (htold.allowed pre _ post hsplit).1
    rw [← hbegun, mem_begunJobs, hsplit]
    exact List.mem_append_left _ hpre

/-- `begin` and `end` are about no job. -/
theorem Complete.call {jobs : List (Job Item)} {calls : List (Callback Item)}
    (h : Complete jobs calls) : Complete jobs (.begin :: (calls ++ [.finish])) := by
  refine ⟨?_, fun j ev hmem => h.event j ev (by simpa using hmem)⟩
  have hsame : endedJobs (.begin :: (calls ++ [.finish])) = endedJobs calls := by
    simp [endedJobs]
  rw [hsame]
  exact h.ended

theorem map_item_jobsFrom (id : Nat) (plan : List Item) :
    (jobsFrom id plan).map (·.item) = plan := by
  induction plan generalizing id with
  | nil => rfl
  | cons x plan ih => rw [jobsFrom, List.map_cons, ih]

/-- **The report of a run** of any jobs that plans of a tree produce, whatever becomes of its
children: each job has a testcase of its own exactly when every job's node has a parent, every
parameter a value, the search leaves something to cut off, no two jobs have parents of one full
name and show the same of themselves, and the listener holds nothing of earlier runs that is in
the way. -/
theorem report_of_run_iff {root : TestNode} {nodes : List root.Node} {r r' : Runner Item}
    {plan : List Item} (h1 : 1 ≤ r.maxchildren) (hm : r.maxchildren < 2 ^ 31)
    (hc : r.children = []) (hproduced : ∀ job ∈ plan, Produced root (nodes.map (·.1)) job)
    (hnodup : plan.Nodup) (hrun : RunTests r plan r') (before : Suites) :
    Reports root before (jobsFrom r.nextId plan) (toldSince r r') ↔
      Distinguished root plan ∧
        Harmless root before (jobsFrom r.nextId plan) (toldSince r r') := by
  obtain ⟨s, hs, hpc, rfl⟩ := hrun
  obtain ⟨cs, hwhole⟩ := whole_of_done h1 hm hc hs hpc
  have hcomplete : Complete (jobsFrom r.nextId plan) (toldSince r s.runner) := by
    rw [hwhole.toldSince hpc]
    exact (complete_of_told hwhole.told hwhole.counted hpc).call
  have hitems := map_item_jobsFrom r.nextId plan
  have hjobs : ∀ j ∈ jobsFrom r.nextId plan, IsJob root j.item := fun j hj =>
    isJob_of_produced (hproduced j.item (hitems ▸ List.mem_map_of_mem hj))
  have hiff := reports_iff hjobs (by rwa [hitems]) hcomplete before
  rwa [hitems] at hiff

/-! ### Two values, and one value twice -/

theorem same_pastries_few : (valuesOf (nodeName "donut donut")).length < 2 ^ 32 := by decide

/-- A parameter with one value twice. -/
def samePastries : Declaration :=
  ⟨nodeName "pastry", 0, nodeName "donut donut", same_pastries_few⟩

/-- A test with one parameter, below a node with a name. -/
def bakery (d : Declaration) : TestNode :=
  .mk { name := some (nodeName "bakery") } [.mk {
    name := some (nodeName "t"), test := some emptyTest, parameters := [d.parameter] } []]

/-- The plan of a parameter with two values. -/
def bakeryPlan (d : Declaration) : List Item :=
  [([0], [{ param := d.parameter, idx := 0 }]), ([0], [{ param := d.parameter, idx := 1 }])]

/-- The child of the first job dies, and that of the second passes its test. -/
def bakeryRun : List Label :=
  [.fork 100 0, .tau, .close 100, .exit 100 (.signaled 11), .poll 0 .ready, .tau, .tau, .tau,
    .waited 100, .waitNone, .tau, .fork 101 0, .tau,
    .write 101 (serialiseMessage (.finished .pass)), .close 101, .exit 101 (.exited 0),
    .poll 0 .ready, .tau, .tau, .tau, .waited 101, .waitNone, .tau, .tau]

/-- What the listeners are told. -/
def bakeryCalls (d : Declaration) : List (Callback Item) :=
  .begin :: ((jobsFrom 1 (bakeryPlan d)).zip
      [((exitEvent 100 (.signaled 11)).toList.map Event.normalise, .fail), ([], .pass)]).flatMap
    (fun e => .beginJob e.1 :: e.2.1.map (.addEvent e.1) ++ [.endJob e.1 e.2.2]) ++ [.finish]

theorem runTests_bakery {d : Declaration} (hd : d = twoPastries ∨ d = samePastries) :
    ∃ r', RunTests {} (bakeryPlan d) r' ∧ toldSince {} r' = bakeryCalls d := by
  have hdone : (execute Sys.step (fun _ _ => true)
      (Sys.start ({} : Runner Item) (bakeryPlan d)) bakeryRun).any
        (fun s => s.pc = .done ∧ s.runner.calls = bakeryCalls d) = true := by
    rcases hd with rfl | rfl <;> decide +kernel
  obtain ⟨s, hs, hend⟩ := Run.of_execute hdone
  obtain ⟨hpc, hcalls⟩ := of_decide_eq_true hend
  exact ⟨s.runner, ⟨s, hs.mono fun _ _ _ => trivial, hpc, rfl⟩, hcalls⟩

theorem produced_bakery {d : Declaration} (hd : d = twoPastries ∨ d = samePastries) :
    ∀ job ∈ bakeryPlan d, Produced (bakery d) [[]] job := by
  have hyields : Yields (bakery d) [[]] (bakeryPlan d) :=
    ⟨5, by rcases hd with rfl | rfl <;> decide +kernel⟩
  exact hyields.produced

/-- The jobs of two different values. -/
theorem report_two_pastries : ∃ r', RunTests {} (bakeryPlan twoPastries) r' ∧
    failures (toldSince {} r') = 1 ∧
    Reports (bakery twoPastries) ∅ (jobsFrom 1 (bakeryPlan twoPastries)) (toldSince {} r') := by
  obtain ⟨r', hrun, htold⟩ := runTests_bakery (.inl rfl)
  refine ⟨r', hrun, by rw [htold]; decide +kernel, ?_⟩
  refine (@report_of_run_iff (bakery twoPastries) [⟨[], rfl⟩] {} r' _ (by decide) (by decide) rfl
    (produced_bakery (.inl rfl)) (by decide +kernel) hrun ∅).mpr ⟨?_, fun k c hc => ?_⟩
  · have hnamed : Named (bakery twoPastries) [] := ⟨_, rfl, rfl⟩
    have hparameters : (bakery twoPastries).parameters [0] = [twoPastries.parameter] := rfl
    have hvalues : twoPastries.parameter.values ≠ [] := by decide
    have hcase : caseName (bakery twoPastries) ([0], [{ param := twoPastries.parameter }]) ≠
        caseName (bakery twoPastries) ([0], [{ param := twoPastries.parameter, idx := 1 }]) := by
      decide +kernel
    refine ⟨?_, ?_, ?_, ?_⟩
    · simp [bakeryPlan]
    · simp [bakeryPlan, hparameters, hvalues]
    · simp [bakeryPlan, hnamed]
    · simp [bakeryPlan, hcase, hcase.symm]
  · cases (MapOfMaps.get_empty k).symm.trans hc

/-- Both jobs of one value are written to one case: the second takes the place of the first, and
the failure is gone. -/
theorem report_same_pastries : ∃ r', RunTests {} (bakeryPlan samePastries) r' ∧
    (bakeryPlan samePastries).Nodup ∧
    (∀ job ∈ bakeryPlan samePastries, Produced (bakery samePastries) [[]] job) ∧
    ¬ Reports (bakery samePastries) ∅ (jobsFrom 1 (bakeryPlan samePastries)) (toldSince {} r') ∧
    failures (toldSince {} r') = 1 ∧
    (listen (bakery samePastries) ∅ (toldSince {} r')).toOption.map
      (fun suites => ((report suites).map (·.tests), (report suites).map (·.errors))) =
        some ([1], [0]) := by
  obtain ⟨r', hrun, htold⟩ := runTests_bakery (.inr rfl)
  refine ⟨r', hrun, by decide +kernel, produced_bakery (.inr rfl), ?_, ?_, ?_⟩
  · rintro ⟨suites, -, hreport⟩
    have hsame : findCase (bakery samePastries) ([0], [{ param := samePastries.parameter }]) =
        findCase (bakery samePastries) ([0], [{ param := samePastries.parameter, idx := 1 }]) := by
      decide +kernel
    have hjob := hreport.apart ⟨1, _⟩ List.mem_cons_self ⟨2, _⟩
      (List.mem_cons_of_mem _ List.mem_cons_self) hsame
    exact absurd (congrArg Job.id hjob) (by decide)
  · rw [htold]
    decide +kernel
  · rw [htold]
    decide +kernel

end Junit

end NovaProva
