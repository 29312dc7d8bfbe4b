import NovaProva.Tree.Names

/-!
# Tree — Jobs

`np/job.cxx` and the parameters of `np/testnode.cxx`: a parameter's values are cut out of one text,
an iterator of a plan yields a job for each combination of values, and a job applies its values to
the variables before the test runs and shows them in its name.

An assignment starts at the first value without looking whether there is one, and `bump` looks only
when it moves on.  So a parameter whose text has separators only, or nothing, gives a job that reads
behind the end of an empty vector.

* `Declaration`: a parameter as `NP_PARAMETER` declares it.
* `IteratesTo`, `Produced`: the iterators a plan goes through, and the jobs made of them.
* `IteratesTo.standing`: the invariant of the iterator, for all parameters.
* `produced_jobs_iff`: when every job finds its values.
* `postRun_of_preRun`: what a job leaves of the variables.
-/

namespace NovaProva

/-! ### Declarations -/

/-- The separators `", \t"`. -/
def isSeparator (b : UInt8) : Bool := b == 44 || b == 32 || b == 9

/-- What `tok_t::next` returns one after the other. -/
def valuesOf (vals : CString) : List CString :=
  ((vals.bytes.splitOnP isSeparator).filter (· ≠ [])).map CString.ofBuffer

/-- `NP_PARAMETER`: the variable it declares and the text with the values. -/
structure Declaration where
  name : CString
  var : Nat
  vals : CString
  few : (valuesOf vals).length < 2 ^ 32

/-- The constructor of `parameter_t`. -/
def Declaration.parameter (d : Declaration) : Parameter :=
  ⟨d.name, d.var, valuesOf d.vals, d.few⟩

theorem exists_piece_iff (p : UInt8 → Bool) (bs : List UInt8) :
    (∃ piece ∈ bs.splitOnP p, piece ≠ []) ↔ ∃ b ∈ bs, p b = false := by
  induction bs with
  | nil => simp
  | cons b bs ih =>
    cases hb : p b with
    | true => simp [List.splitOnP_cons_eq_if_modifyHead, hb, ih]
    | false =>
      obtain ⟨piece, pieces, hsplit⟩ := List.exists_cons_of_ne_nil (List.splitOnP_ne_nil p bs)
      simp [List.splitOnP_cons_eq_if_modifyHead, hb, hsplit]

/-- A text gives a value if it has a character that is no separator. -/
theorem valuesOf_ne_nil_iff (vals : CString) :
    valuesOf vals ≠ [] ↔ ∃ b ∈ vals.bytes, isSeparator b = false := by
  rw [← exists_piece_iff]
  simp [valuesOf, List.filter_eq_nil_iff]

/-- The parameters were declared, each with a variable of its own. -/
structure Declared (root : TestNode) : Prop where
  parameter : ∀ p, ∀ q ∈ root.parameters p, ∃ d : Declaration, q = d.parameter
  distinct : ∀ p, ((root.parameters p).map (·.var)).Nodup

/-! ### Assignments and jobs -/

/-- The variables, with the text each points to. -/
abbrev Variables := Nat → Option CString

namespace Assignment

/-- `param_->values_[idx_]`; `none` when that is outside the values. -/
def value (a : Assignment) : Option CString := a.param.values[a.idx]?

/-- `assignment_t::apply`. -/
def apply (vars : Variables) (a : Assignment) : Option Variables :=
  a.value.map fun v => Function.update vars a.param.var (some v)

/-- `assignment_t::unapply`. -/
def unapply (vars : Variables) (a : Assignment) : Variables :=
  Function.update vars a.param.var none

/-- `assignment_t::as_string`. -/
def asString (a : Assignment) : Option (List UInt8) :=
  a.value.map fun v => a.param.name.bytes ++ CString.ascii "=" ++ v.bytes

end Assignment

namespace Item

/-- One turn of the loop of `as_string`. -/
def appendAssignment (s : List UInt8) (a : Assignment) : Option (List UInt8) :=
  a.asString.map fun t => s ++ CString.ascii "[" ++ t ++ CString.ascii "]"

/-- `job_t::as_string`. -/
def asString (root : TestNode) (job : Item) : Option (List UInt8) :=
  job.2.foldlM appendAssignment (getFullname (root.chain job.1))

/-- `job_t::pre_run`, what it does to the variables. -/
def preRun (inParent : Bool) (job : Item) (vars : Variables) : Option Variables :=
  if inParent then some vars else job.2.foldlM Assignment.apply vars

/-- `job_t::post_run`, what it does to the variables. -/
def postRun (inParent : Bool) (job : Item) (vars : Variables) : Variables :=
  if inParent then vars else job.2.foldl Assignment.unapply vars

end Item

/-! ### What a plan produces -/

/-- The iterators of a loop over a plan, also of one that does not come to its end. -/
inductive IteratesTo (root : TestNode) (nodes : List Ptr) : PlanIterator → Prop where
  | begin {fuel : Nat} {it : PlanIterator} (h : PlanIterator.new root fuel nodes = .ok it) :
      IteratesTo root nodes it
  | succ {fuel : Nat} {it it' : PlanIterator} (hr : IteratesTo root nodes it)
      (hend : it.isEnd = false) (h : it.succ root fuel = .ok it') : IteratesTo root nodes it'

/-- `job_t`'s constructor is called with an iterator at `job`. -/
def Produced (root : TestNode) (nodes : List Ptr) (job : Item) : Prop :=
  ∃ it, IteratesTo root nodes it ∧ it.isEnd = false ∧ it.nitr.node = some job.1 ∧
    it.assigns = job.2

section
variable {root : TestNode} {nodes : List Ptr}

theorem IteratesTo.produced_of_collect {fuel : Nat} {it : PlanIterator} {items : List Item}
    (hr : IteratesTo root nodes it) (h : it.collect root fuel = .ok items) :
    ∀ job ∈ items, Produced root nodes job := by
  induction fuel generalizing it items with
  | zero => cases h
  | succ fuel ih =>
    rw [PlanIterator.collect] at h
    cases hend : it.isEnd with
    | true =>
      rw [if_pos hend] at h
      cases h
      simp
    | false =>
      rw [if_neg (by simp [hend])] at h
      cases hnode : it.nitr.node with
      | none => simp [hnode] at h
      | some p =>
        cases hsucc : it.succ root fuel with
        | error e => simp [hnode, hsucc] at h
        | ok it' =>
          simp only [hnode, hsucc] at h
          cases hrest : it'.collect root fuel with
          | error e => simp [hrest, Except.map] at h
          | ok rest =>
            rw [hrest] at h
            cases h
            intro job hjob
            rcases List.mem_cons.mp hjob with rfl | hjob
            · exact ⟨it, hr, hend, hnode, rfl⟩
            · exact ih (.succ hr hend hsucc) hrest job hjob

/-- What a plan yields that is iterated to its end was produced. -/
theorem Yields.produced {items : List Item} (h : Yields root nodes items) :
    ∀ job ∈ items, Produced root nodes job := by
  obtain ⟨fuel, h⟩ := h
  rw [iteratePlan] at h
  cases hnew : PlanIterator.new root fuel nodes with
  | error e =>
    rw [hnew] at h
    cases h
  | ok it =>
    rw [hnew] at h
    exact (IteratesTo.begin hnew).produced_of_collect h

/-! ### Where an iterator stands -/

/-- An index is one of a value, or there are no values and it was never moved. -/
def InRange (a : Assignment) : Prop :=
  a.idx < a.param.values.length ∨ a.param.values = [] ∧ a.idx = 0

/-- `bump` keeps the parameters, and the indices in range. -/
theorem bump_spec {as as' : List Assignment} (h : bump as = some as')
    (has : ∀ a ∈ as, InRange a) :
    as'.map (·.param) = as.map (·.param) ∧ ∀ a ∈ as', InRange a := by
  induction as generalizing as' with
  | nil => cases h
  | cons a as ih =>
    have htail : ∀ b ∈ as, InRange b := fun b hb => has b (List.mem_cons_of_mem _ hb)
    rw [bump] at h
    split at h
    case isTrue hlt =>
      cases h
      exact ⟨rfl, List.forall_mem_cons.mpr ⟨.inl hlt, htail⟩⟩
    · obtain ⟨bs, hbs, rfl⟩ := Option.map_eq_some_iff.mp h
      obtain ⟨hparams, hrange⟩ := ih hbs htail
      refine ⟨by simp [hparams], List.forall_mem_cons.mpr ⟨?_, hrange⟩⟩
      -- a wheel that turned over starts again at the first value, if it has one
      rcases Nat.eq_zero_or_pos a.param.values.length with h0 | hpos
      · exact .inr ⟨List.length_eq_zero_iff.mp h0, rfl⟩
      · exact .inl hpos

theorem createAssignments_spec (root : TestNode) (p : Ptr) :
    (createAssignments (root.chain p)).map (·.param) = root.parameters p ∧
      ∀ a ∈ createAssignments (root.chain p), InRange a := by
  rw [createAssignments_eq]
  refine ⟨by simp [Function.comp_def], ?_⟩
  intro a ha
  obtain ⟨q, -, rfl⟩ := List.mem_map.mp ha
  rcases Nat.eq_zero_or_pos q.values.length with h0 | hpos
  · exact .inr ⟨List.length_eq_zero_iff.mp h0, rfl⟩
  · exact .inl hpos

/-- The iterator is at a test of the walk of `base`, with the nodes `ps` still to come. -/
structure At (root : TestNode) (base : Ptr) (rest : List Ptr) (it : PlanIterator) (p : Ptr)
    (ps : List Ptr) : Prop where
  vitr : it.vitr = base :: rest
  nitr : it.nitr = ⟨some base, some p⟩
  walk : Walk root base (some p) (p :: ps)
  test : root.testable p = true
  params : it.assigns.map (·.param) = root.parameters p
  range : ∀ a ∈ it.assigns, InRange a

/-- The iterator is at a test of one of the nodes `ps`, or at the end. -/
def Standing (root : TestNode) (base : Ptr) (rest : List Ptr) (ps : List Ptr)
    (it : PlanIterator) : Prop :=
  it.isEnd = true ∨ ∃ p qs, At root base rest it p qs ∧ (p :: qs) <:+ ps

variable {base : Ptr} {rest : List Ptr}

theorem Walk.inv {p : Ptr} {ps : List Ptr} (hw : Walk root base (some p) (p :: ps)) :
    ∃ q, PreorderIterator.succ root ⟨some base, some p⟩ = .ok q ∧ Walk root base q ps := by
  cases hw with
  | visit h hw => exact ⟨_, h, hw⟩

/-- `find_testable_node` ends at a test of what is left of the walk, or at the end. -/
theorem findTestableNode_standing {node : Option Ptr} {ps : List Ptr}
    (hw : Walk root base node ps) {fuel : Nat} {it : PlanIterator}
    (h : PlanIterator.findTestableNode root fuel
      { vitr := base :: rest, nitr := ⟨some base, node⟩ } = .ok it) :
    Standing root base rest ps it := by
  induction hw generalizing fuel with
  | done =>
    cases fuel with
    | zero => cases h
    | succ fuel =>
      cases rest with
      | nil =>
        cases h
        exact .inl rfl
      | cons r rs => cases h
  | @visit p q ps hq hw ih =>
    cases fuel with
    | zero => cases h
    | succ fuel =>
      by_cases ht : root.testable p = true
      · rw [findTestableNode_test ht] at h
        cases h
        obtain ⟨hparams, hrange⟩ := createAssignments_spec root p
        exact .inr ⟨p, ps, ⟨rfl, rfl, .visit hq hw, ht, hparams, hrange⟩, List.suffix_rfl⟩
      · rw [findTestableNode_next ht hq] at h
        refine (ih h).imp_right ?_
        rintro ⟨r, qs, hat, hsuf⟩
        exact ⟨r, qs, hat, hsuf.trans (List.suffix_cons p ps)⟩

/-- One step of the iterator. -/
theorem succ_standing {ps : List Ptr} {fuel : Nat} {it it' : PlanIterator}
    (hs : Standing root base rest ps it) (hend : it.isEnd = false)
    (h : it.succ root fuel = .ok it') : Standing root base rest ps it' := by
  rcases hs with hs | ⟨p, qs, hat, hsuf⟩
  · rw [hend] at hs
    cases hs
  · rw [PlanIterator.succ] at h
    cases hb : bump it.assigns with
    | some as =>
      rw [hb] at h
      cases h
      obtain ⟨hparams, hrange⟩ := bump_spec hb hat.range
      exact .inr ⟨p, qs, ⟨hat.vitr, hat.nitr, hat.walk, hat.test, hparams.trans hat.params,
        hrange⟩, hsuf⟩
    | none =>
      obtain ⟨q, hq, hw⟩ := hat.walk.inv
      simp only [hb, hat.nitr, hq, hat.vitr] at h
      refine (findTestableNode_standing hw h).imp_right ?_
      rintro ⟨r, qs', hat', hsuf'⟩
      exact ⟨r, qs', hat', hsuf'.trans ((List.suffix_cons p qs).trans hsuf)⟩

/-- **Where the iterator of a plan stands**, from `begin()` on: at the end, or at a test at or below
the first node of the plan. -/
theorem IteratesTo.standing {t : TestNode} (ht : root.at? base = some t) {it : PlanIterator}
    (hr : IteratesTo root (base :: rest) it) :
    Standing root base rest (TestNode.preorder base t) it := by
  induction hr with
  | begin h => exact findTestableNode_standing (TestNode.walk_node ht) h
  | succ _ hend h ih => exact succ_standing ih hend h

/-! ### Every test is produced -/

/-- The odometer is turned until it stops. -/
theorem IteratesTo.bumped {it : PlanIterator} {p : Ptr} {ps : List Ptr}
    (hr : IteratesTo root nodes it) (hat : At root base rest it p ps) :
    ∃ it', IteratesTo root nodes it' ∧ At root base rest it' p ps ∧ bump it'.assigns = none := by
  obtain ⟨as, has⟩ : ∃ as, it.assigns = as := ⟨_, rfl⟩
  induction halts as generalizing it with
  | done hb => exact ⟨it, hr, hat, by rw [has, hb]⟩
  | @step as as' hb _ ih =>
    rw [← has] at hb
    have hsucc : it.succ root 0 = .ok { it with assigns := as' } := by
      rw [PlanIterator.succ, hb]
    have hend : it.isEnd = false := by simp [PlanIterator.isEnd, hat.vitr]
    obtain ⟨hparams, hrange⟩ := bump_spec hb hat.range
    exact ih (.succ hr hend hsucc) ⟨hat.vitr, hat.nitr, hat.walk, hat.test,
      hparams.trans hat.params, hrange⟩ rfl

/-- From where `find_testable_node` looks next, the iterator comes to each of the tests left. -/
theorem produced_of_walk {node : Option Ptr} {ps : List Ptr} (hw : Walk root base node ps)
    (hr : ∀ fuel it, PlanIterator.findTestableNode root fuel
      { vitr := base :: rest, nitr := ⟨some base, node⟩ } = .ok it → IteratesTo root nodes it) :
    ∀ p ∈ ps, root.testable p = true →
      Produced root nodes (p, createAssignments (root.chain p)) := by
  induction hw with
  | done => simp
  | @visit p q ps hq hw ih =>
    by_cases ht : root.testable p = true
    · have hstop := hr 1 _ (findTestableNode_test ht 0)
      obtain ⟨hparams, hrange⟩ := createAssignments_spec root p
      refine List.forall_mem_cons.mpr ⟨fun _ => ⟨_, hstop, rfl, rfl, rfl⟩, ih ?_⟩
      intro fuel it hit
      obtain ⟨it', hr', hat', hb⟩ :=
        hstop.bumped ⟨rfl, rfl, .visit hq hw, ht, hparams, hrange⟩
      have hend : it'.isEnd = false := by simp [PlanIterator.isEnd, hat'.vitr]
      have hsucc : it'.succ root fuel = .ok it := by
        simp only [PlanIterator.succ, hb, hat'.nitr, hq, hat'.vitr]
        exact hit
      exact .succ hr' hend hsucc
    · refine List.forall_mem_cons.mpr ⟨fun h => absurd h ht, ih ?_⟩
      intro fuel it hit
      exact hr (fuel + 1) it (by rw [findTestableNode_next ht hq, hit])

/-- Each test at or below the first node of the plan is produced, with the first assignments. -/
theorem produced_test {t : TestNode} (ht : root.at? base = some t) {p : Ptr} (hp : base <:+ p)
    (htest : root.testable p = true) :
    Produced root (base :: rest) (p, createAssignments (root.chain p)) := by
  have hbegin : ∀ fuel it, PlanIterator.findTestableNode root fuel
      { vitr := base :: rest, nitr := ⟨some base, some base⟩ } = .ok it →
      IteratesTo root (base :: rest) it := fun fuel it hit =>
        @IteratesTo.begin _ _ fuel it hit
  refine produced_of_walk (TestNode.walk_node ht) hbegin p ?_ htest
  refine (TestNode.mem_preorder ht).mpr ⟨hp, ?_⟩
  cases hat : root.at? p with
  | none => simp [TestNode.testable, hat] at htest
  | some a => rfl

/-- An empty plan is at its end. -/
theorem IteratesTo.isEnd_of_nil {it : PlanIterator} (hr : IteratesTo root [] it) :
    it.isEnd = true := by
  induction hr with
  | begin h =>
    cases h
    rfl
  | succ _ hend _ ih =>
    rw [hend] at ih
    cases ih

/-- What is produced is a test at or below the first node, with an index for each parameter. -/
theorem Produced.spec {t : TestNode} (ht : root.at? base = some t) {job : Item}
    (h : Produced root (base :: rest) job) :
    base <:+ job.1 ∧ root.testable job.1 = true ∧
      job.2.map (·.param) = root.parameters job.1 ∧ ∀ a ∈ job.2, InRange a := by
  obtain ⟨it, hr, hend, hnode, hassigns⟩ := h
  rcases hr.standing ht with hs | ⟨p, qs, hat, hsuf⟩
  · rw [hend] at hs
    cases hs
  · obtain rfl : p = job.1 := by simpa [hat.nitr] using hnode
    rw [← hassigns]
    have hmem : job.1 ∈ TestNode.preorder base t := hsuf.subset List.mem_cons_self
    exact ⟨((TestNode.mem_preorder ht).mp hmem).1, hat.test, hat.params, hat.range⟩

end

/-! ### What a job does with its values -/

/-- The text of a parameter with a value, in the name of a job. -/
def bracketed (q : Parameter) (v : CString) : List UInt8 :=
  CString.ascii "[" ++ (q.name.bytes ++ CString.ascii "=" ++ v.bytes) ++ CString.ascii "]"

theorem foldlM_appendAssignment {as : List Assignment} (h : ∀ a ∈ as, a.value.isSome)
    (s : List UInt8) :
    as.foldlM Item.appendAssignment s =
      some (s ++ as.flatMap fun a => bracketed a.param (a.value.getD .empty)) := by
  induction as generalizing s with
  | nil => simp
  | cons a as ih =>
    obtain ⟨ha, has⟩ := List.forall_mem_cons.mp h
    obtain ⟨v, hv⟩ := Option.isSome_iff_exists.mp ha
    simp [Item.appendAssignment, Assignment.asString, hv, ih has, bracketed]

/-- Variables without an assignment are left as they are. -/
theorem foldlM_apply_of_not_mem {as : List Assignment} {vars vars' : Variables}
    (h : as.foldlM Assignment.apply vars = some vars') {x : Nat}
    (hx : x ∉ as.map (·.param.var)) : vars' x = vars x := by
  induction as generalizing vars with
  | nil =>
    obtain rfl := Option.some.inj h
    rfl
  | cons a as ih =>
    obtain ⟨hne, hx⟩ := not_or.mp (mt List.mem_cons.mpr hx)
    rw [List.foldlM_cons] at h
    obtain ⟨vars₁, happly, h⟩ := Option.bind_eq_some_iff.mp h
    obtain ⟨v, -, rfl⟩ := Option.map_eq_some_iff.mp happly
    rw [ih h hx, Function.update_of_ne hne]

/-- Each variable with an assignment gets its value. -/
theorem foldlM_apply {as : List Assignment} (hvalues : ∀ a ∈ as, a.value.isSome)
    (hdistinct : (as.map (·.param.var)).Nodup) (vars : Variables) :
    ∃ vars', as.foldlM Assignment.apply vars = some vars' ∧
      ∀ a ∈ as, vars' a.param.var = a.value := by
  induction as generalizing vars with
  | nil => exact ⟨vars, rfl, by simp⟩
  | cons a as ih =>
    obtain ⟨ha, has⟩ := List.forall_mem_cons.mp hvalues
    obtain ⟨hnot, hnodup⟩ := List.nodup_cons.mp hdistinct
    obtain ⟨v, hv⟩ := Option.isSome_iff_exists.mp ha
    obtain ⟨vars', hfold, happlied⟩ := ih has hnodup (Function.update vars a.param.var (some v))
    refine ⟨vars', by simp [Assignment.apply, hv, hfold], ?_⟩
    refine List.forall_mem_cons.mpr ⟨?_, happlied⟩
    rw [foldlM_apply_of_not_mem hfold hnot, Function.update_self, hv]

theorem foldl_unapply (as : List Assignment) (vars : Variables) (x : Nat) :
    as.foldl Assignment.unapply vars x =
      if x ∈ as.map (·.param.var) then none else vars x := by
  induction as generalizing vars with
  | nil => rfl
  | cons a as ih =>
    rw [List.foldl_cons, ih, Assignment.unapply]
    by_cases hx : x = a.param.var
    · simp [hx]
    · simp [hx]

/-- **What a job leaves behind.**  After `pre_run` and `post_run` in a child the variables of the
job's parameters are null, and the others are what they were; the runner's own are not touched. -/
theorem postRun_of_preRun {inParent : Bool} {job : Item} {vars vars' : Variables}
    (h : job.preRun inParent vars = some vars') (x : Nat) :
    job.postRun inParent vars' x =
      if inParent = false ∧ x ∈ job.2.map (·.param.var) then none else vars x := by
  cases inParent with
  | true =>
    obtain rfl := Option.some.inj h
    rfl
  | false =>
    rw [Item.postRun, if_neg Bool.false_ne_true, foldl_unapply]
    by_cases hx : x ∈ job.2.map (·.param.var)
    · rw [if_pos hx, if_pos ⟨rfl, hx⟩]
    · rw [if_neg hx, if_neg (fun hand => hx hand.2)]
      exact foldlM_apply_of_not_mem h hx

/-- Before the test code every variable of a parameter in scope holds one of the values, and the
name of the job shows these values. -/
def ShowsValues (root : TestNode) (job : Item) (vars : Variables) : Prop :=
  ∃ (vars' : Variables) (v : Parameter → CString), Item.preRun false job vars = some vars' ∧
    (∀ q ∈ root.parameters job.1, v q ∈ q.values ∧ vars' q.var = some (v q)) ∧
    Item.asString root job = some (getFullname (root.chain job.1) ++
      (root.parameters job.1).flatMap fun q => bracketed q (v q))

theorem showsValues {root : TestNode} (hroot : Declared root) {job : Item}
    (hparams : job.2.map (·.param) = root.parameters job.1)
    (hidx : ∀ a ∈ job.2, a.idx < a.param.values.length) (vars : Variables) :
    ShowsValues root job vars := by
  have hvalue : ∀ a ∈ job.2, a.value.isSome := by
    intro a ha
    simp [Assignment.value, hidx a ha]
  have hdistinct : (job.2.map (·.param.var)).Nodup := by
    have hnodup := hroot.distinct job.1
    rwa [← hparams, List.map_map] at hnodup
  obtain ⟨vars', hfold, happlied⟩ := foldlM_apply hvalue hdistinct vars
  refine ⟨vars', fun q => (vars' q.var).getD .empty, hfold, ?_, ?_⟩
  · intro q hq
    rw [← hparams] at hq
    obtain ⟨a, ha, rfl⟩ := List.mem_map.mp hq
    obtain ⟨v, hv⟩ := Option.isSome_iff_exists.mp (hvalue a ha)
    simp only [happlied a ha, hv, Option.getD_some, and_true]
    exact List.mem_of_getElem? hv
  · rw [Item.asString, foldlM_appendAssignment hvalue, ← hparams, List.flatMap_map]
    congr 2
    refine List.flatMap_congr fun a ha => ?_
    simp only [happlied a ha]

/-- **When every job finds its values**: exactly when the text of each parameter declared at a test
of the plan's first node, or above it, has a character that is no separator. -/
theorem produced_jobs_iff (root : TestNode) (hroot : Declared root) (nodes : List root.Node) :
    (∀ job, Produced root (nodes.map (·.1)) job →
      (∀ a ∈ job.2, a.idx < a.param.values.length) ∧ ∀ vars, ShowsValues root job vars) ↔
    ∀ n, nodes.head? = some n → ∀ p, n.1 <:+ p → root.testable p = true →
      ∀ d : Declaration, d.parameter ∈ root.parameters p →
        ∃ b ∈ d.vals.bytes, isSeparator b = false := by
  constructor
  · intro hjobs n hn p hp htest d hd
    obtain ⟨rest, rfl⟩ : ∃ rest, nodes = n :: rest := List.head?_eq_some_iff.mp hn
    obtain ⟨t, ht⟩ := Option.isSome_iff_exists.mp n.2
    have hfirst : ({ param := d.parameter } : Assignment) ∈ createAssignments (root.chain p) := by
      rw [createAssignments_eq]
      exact List.mem_map_of_mem hd
    have hidx := (hjobs _ (produced_test ht hp htest)).1 _ hfirst
    exact (valuesOf_ne_nil_iff d.vals).mp (List.ne_nil_of_length_pos hidx)
  · intro hvals job hjob
    cases nodes with
    | nil =>
      obtain ⟨it, hr, hend, -⟩ := hjob
      rw [hr.isEnd_of_nil] at hend
      cases hend
    | cons n rest =>
      obtain ⟨t, ht⟩ := Option.isSome_iff_exists.mp n.2
      obtain ⟨hp, htest, hparams, hrange⟩ := hjob.spec ht
      have hidx : ∀ a ∈ job.2, a.idx < a.param.values.length := by
        intro a ha
        refine (hrange a ha).resolve_right ?_
        rintro ⟨hempty, -⟩
        have hmem : a.param ∈ root.parameters job.1 := hparams ▸ List.mem_map_of_mem ha
        obtain ⟨d, hd⟩ := hroot.parameter job.1 a.param hmem
        rw [hd] at hmem hempty
        exact (valuesOf_ne_nil_iff d.vals).mpr (hvals n rfl job.1 hp htest d hmem) hempty
      exact ⟨hidx, showsValues hroot hparams hidx⟩

/-! ### A parameter with values, and one without -/

theorem two_pastries_few : (valuesOf (nodeName "donut,bearclaw")).length < 2 ^ 32 := by decide

theorem no_pastries_few : (valuesOf (nodeName " ,")).length < 2 ^ 32 := by decide

/-- A parameter with two values. -/
def twoPastries : Declaration :=
  ⟨nodeName "pastry", 0, nodeName "donut,bearclaw", two_pastries_few⟩

/-- A parameter whose text has separators only. -/
def noPastries : Declaration := ⟨nodeName "pastry", 0, nodeName " ,", no_pastries_few⟩

/-- A test with one parameter. -/
def oneParameter (d : Declaration) : TestNode :=
  .mk {} [.mk {
    name := some (nodeName "t"), test := some emptyTest, parameters := [d.parameter] } []]

theorem at?_oneParameter (d : Declaration) (i j : Nat) (up : Ptr) :
    (oneParameter d).at? (i :: j :: up) = none := by
  induction up generalizing i j with
  | nil => cases j <;> simp [TestNode.at?, oneParameter, TestNode.children]
  | cons k up ih => rw [TestNode.at?, ih, Option.bind_none]

theorem parameters_oneParameter (d : Declaration) (p : Ptr) :
    (oneParameter d).parameters p = [] ∨ (oneParameter d).parameters p = [d.parameter] := by
  induction p with
  | nil => exact .inl rfl
  | cons i up ih =>
    cases up with
    | nil =>
      cases i with
      | zero => exact .inr rfl
      | succ i => exact .inl rfl
    | cons j up => simpa [TestNode.parameters, TestNode.chain, at?_oneParameter] using ih

theorem declared_oneParameter (d : Declaration) : Declared (oneParameter d) where
  parameter p q hq := by
    rcases parameters_oneParameter d p with h | h
    · simp [h] at hq
    · exact ⟨d, by simpa [h] using hq⟩
  distinct p := by
    rcases parameters_oneParameter d p with h | h
    · simp [h]
    · simp [h]

/-- The jobs of a parameter with two values. -/
theorem produced_jobs_pastries :
    Declared (oneParameter twoPastries) ∧
    ∀ job, Produced (oneParameter twoPastries) [[]] job →
      (∀ a ∈ job.2, a.idx < a.param.values.length) ∧
        ∀ vars, ShowsValues (oneParameter twoPastries) job vars := by
  refine ⟨declared_oneParameter _, ?_⟩
  refine (produced_jobs_iff _ (declared_oneParameter _) [⟨[], rfl⟩]).mpr ?_
  intro n hn p hp htest d hd
  rw [← valuesOf_ne_nil_iff]
  rcases parameters_oneParameter twoPastries p with h | h
  · simp [h] at hd
  · rw [h, List.mem_singleton] at hd
    have hvalues : valuesOf d.vals = valuesOf twoPastries.vals := congrArg Parameter.values hd
    rw [hvalues]
    decide

/-- A parameter declared with separators only: the job's name and its variable are read behind the
end of the values. -/
theorem produced_job_reads_outside :
    Declared (oneParameter noPastries) ∧
    ∃ job, Produced (oneParameter noPastries) [[]] job ∧
      (¬ ∀ a ∈ job.2, a.idx < a.param.values.length) ∧
      Item.asString (oneParameter noPastries) job = none ∧
      ∀ vars, Item.preRun false job vars = none := by
  refine ⟨declared_oneParameter _, ([0], [{ param := noPastries.parameter }]), ?_, ?_, ?_, ?_⟩
  · have hroot : (oneParameter noPastries).at? [] = some (oneParameter noPastries) := rfl
    exact produced_test hroot List.nil_suffix rfl
  · intro h
    exact absurd (h _ List.mem_cons_self) (by decide)
  · rfl
  · intro vars
    rfl

end NovaProva
