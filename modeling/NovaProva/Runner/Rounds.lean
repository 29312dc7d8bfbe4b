import NovaProva.Runner.Progress

/-!
# Runner — Rounds

The rounds of `wait()`.  A round begins where `poll()` returns with some descriptors ready; the
children are read one after the other, and those that are finished then are reaped in the order
they were started, before the next round.  So the jobs of children that are seen finished in one
round are ended in the order they were begun.
-/

namespace NovaProva

variable {J : Type}

/-- What happens to the children in the rounds of `wait()`, by the ids of their jobs. -/
inductive RoundNote where
  /-- a round begins -/
  | polled
  /-- a child is seen finished -/
  | seen (id : Nat)
  /-- its job is ended -/
  | ended (id : Nat)
  deriving DecidableEq

namespace RoundNote

/-- A child is seen finished in the `k`-th round. -/
def SeenIn (h : List RoundNote) (id k : Nat) : Prop :=
  ∃ pre post, h = pre ++ .seen id :: post ∧ pre.count .polled = k

/-- Of two children that are seen finished in the same round, the one that was started first has
its job ended first. -/
def RoundsOrdered (h : List RoundNote) : Prop :=
  ∀ i j k, i < j → SeenIn h i k → SeenIn h j k →
    ∀ pre post, h = pre ++ .ended j :: post → .ended i ∈ pre

/-- A round begins when `poll()` returns with descriptors ready. -/
def ofLabel : Label → List RoundNote
  | .poll _ .ready => [.polled]
  | _              => []

/-- A call of `end_job`. -/
def ofEnd : Callback J → Option RoundNote
  | .endJob j _ => some (.ended j.id)
  | _           => none

end RoundNote

/-- The children that are finished now and were not before. -/
def Sys.newlyFinished (s t : Sys J) : List (Child J) :=
  t.runner.children.filter fun c =>
    c.isFinished && s.runner.children.any fun d => d.job.id = c.job.id && !d.isFinished

/-- What happens in a step. -/
def Sys.roundNotes (s : Sys J) (l : Label) (t : Sys J) : List RoundNote :=
  RoundNote.ofLabel l ++ (s.newlyFinished t).map (fun c => .seen c.job.id) ++
    (t.runner.calls.drop s.runner.calls.length).filterMap RoundNote.ofEnd

open RoundNote

section
variable {h ns : List RoundNote} {i k : Nat}

theorem seenIn_append : SeenIn (h ++ ns) i k ↔ SeenIn h i k ∨
    ∃ as bs, ns = as ++ .seen i :: bs ∧ h.count .polled + as.count .polled = k := by
  constructor
  · rintro ⟨pre, post, heq, hk⟩
    rcases append_eq_append_cons heq with ⟨as, rfl⟩ | ⟨as, rfl, hns⟩
    · exact .inl ⟨pre, as, rfl, hk⟩
    · rw [List.count_append] at hk
      exact .inr ⟨as, post, hns, hk⟩
  · rintro (⟨pre, post, rfl, hk⟩ | ⟨as, bs, rfl, hk⟩)
    · exact ⟨pre, post ++ ns, by simp, hk⟩
    · refine ⟨h ++ as, bs, by simp, ?_⟩
      rw [List.count_append]
      exact hk

theorem RoundNote.SeenIn.mem (hs : SeenIn h i k) : .seen i ∈ h := by
  obtain ⟨pre, post, rfl, -⟩ := hs
  exact List.mem_append_right _ List.mem_cons_self

/-- A note that says nothing of a child that is seen. -/
theorem seenIn_append_of_notMem (hns : ∀ i, .seen i ∉ ns) :
    SeenIn (h ++ ns) i k ↔ SeenIn h i k := by
  rw [seenIn_append, or_iff_left]
  rintro ⟨as, bs, rfl, -⟩
  exact hns i (List.mem_append_right _ List.mem_cons_self)

end

section
variable {h ns pre post : List RoundNote} {a i j k : Nat}

/-- Notes that end no job leave the jobs that have ended. -/
theorem ended_append_of_notMem (hns : ∀ i, .ended i ∉ ns) :
    .ended i ∈ h ++ ns ↔ .ended i ∈ h := by
  rw [List.mem_append, or_iff_left (hns i)]

/-- Before notes that end no job a job was ended where it was without them. -/
theorem ended_split_of_notMem (hns : ∀ i, .ended i ∉ ns) (heq : h ++ ns = pre ++ .ended j :: post) :
    ∃ as, h = pre ++ .ended j :: as := by
  rcases append_eq_append_cons heq with has | ⟨as, -, has⟩
  · exact has
  · exact absurd (has ▸ List.mem_append_right _ List.mem_cons_self) (hns j)

/-- A job that is ended before the last note, or by it. -/
theorem ended_split_of_ended (heq : h ++ [.ended a] = pre ++ .ended j :: post) :
    (∃ as, h = pre ++ .ended j :: as) ∨ j = a ∧ pre = h := by
  rcases append_eq_append_cons heq with has | ⟨as, rfl, hlast⟩
  · exact .inl has
  · cases as with
    | nil =>
        cases hlast
        exact .inr ⟨rfl, List.append_nil h⟩
    | cons n as => cases as <;> cases hlast

/-- Notes of one child are of the round they are made in. -/
theorem seenIn_append_seen (hns : ∀ n ∈ ns, n = .seen a) (hik : SeenIn (h ++ ns) i k) :
    SeenIn h i k ∨ i = a ∧ k = h.count .polled ∧ ns ≠ [] := by
  rcases seenIn_append.mp hik with hik | ⟨as, bs, rfl, hk⟩
  · exact .inl hik
  · have hnone : as.count RoundNote.polled = 0 := by
      refine List.count_eq_zero.mpr fun hmem => ?_
      cases hns _ (List.mem_append_left _ hmem)
    rw [hnone, Nat.add_zero] at hk
    have hi := hns (.seen i) (List.mem_append_right _ List.mem_cons_self)
    exact .inr ⟨RoundNote.seen.inj hi, hk.symm, by simp⟩

end

/-! ### The invariant -/

/-- The children and the rounds: a child that was seen finished is ended or still there, a round
ends no job before all its children are read, and the child that is waited for is the first of the
finished ones. -/
structure Rounds (x : Sys J × List RoundNote) : Prop where
  ordered : RoundsOrdered x.2
  seen : ∀ i k, SeenIn x.2 i k → k ≤ x.2.count .polled ∧
    (.ended i ∈ x.2 ∨ ∃ c ∈ x.1.runner.children, c.job.id = i ∧ c.isFinished = true)
  input : ∀ nz i pfd nf, x.1.pc = .input nz i pfd nf →
    ∀ id, SeenIn x.2 id (x.2.count .polled) → .ended id ∉ x.2
  ended : ∀ i, .ended i ∈ x.2 → i < x.1.runner.nextId ∧ ∀ c ∈ x.1.runner.children, c.job.id ≠ i
  first : ∀ pid, x.1.pc = .reapPid pid → ∀ c ∈ x.1.runner.children, c.pid = pid →
    x.1.runner.findFinishedChild = some c
  sorted : (x.1.runner.children.map fun c => c.job.id).Pairwise (· < ·)

theorem rounds_start {r : Runner J} (hc : r.children = []) (plan : List J) :
    Rounds (Sys.start r plan, []) := by
  have hch : (Sys.start r plan).runner.children = [] := hc
  have hseen : ∀ i k, ¬ SeenIn [] i k := fun i k h => absurd h.mem List.not_mem_nil
  refine ⟨fun i j k _ hi => absurd hi (hseen i k), fun i k hi => absurd hi (hseen i k),
    fun _ _ _ _ hpc => ?_, nofun, fun _ hpc => ?_, ?_⟩
  · cases hpc
  · cases hpc
  · rw [hch]
    exact .nil

section
variable {s s' : Sys J} {l : Label} {h : List RoundNote} {children : List (Child J)}
  {calls : List (Callback J)} {kills : List Kill}

theorem roundNotes_of_changes (hch : Changes s s' children calls kills) :
    s.roundNotes l s' = ofLabel l ++ (s.newlyFinished s').map (fun c => .seen c.job.id) ++
      calls.filterMap RoundNote.ofEnd := by
  rw [Sys.roundNotes, hch.calls, List.drop_left]

theorem EventsOf.ofEnd (hnew : EventsOf children calls) : calls.filterMap RoundNote.ofEnd = [] := by
  refine List.filterMap_eq_nil_iff.mpr fun cb hcb => ?_
  obtain ⟨c, -, ev, rfl⟩ := hnew cb hcb
  rfl

/-- A child is newly finished if it is finished and was not. -/
theorem mem_newlyFinished {c : Child J} :
    c ∈ s.newlyFinished s' ↔ c ∈ s'.runner.children ∧ c.isFinished = true ∧
      ∃ d ∈ s.runner.children, d.job.id = c.job.id ∧ d.isFinished = false := by
  simp [Sys.newlyFinished]

theorem Wf.newlyFinished_eq_nil (hw : Wf s)
    (hch : ∀ c ∈ s'.runner.children, c.isFinished = true →
      ∀ d ∈ s.runner.children, d.job.id = c.job.id →
        ∃ e ∈ s.runner.children, e.job.id = d.job.id ∧ e.isFinished = true) :
    s.newlyFinished s' = [] := by
  refine List.eq_nil_iff_forall_not_mem.mpr fun c hc => ?_
  obtain ⟨hmem, hfin, d, hd, hid, hunfin⟩ := mem_newlyFinished.mp hc
  obtain ⟨e, he, heid, hefin⟩ := hch c hmem hfin d hd hid
  rw [hw.eq_of_id he hd heid, hunfin] at hefin
  cases hefin

/-- The same children as far as their ids and ends go. -/
theorem mem_of_key (hkeys : s'.runner.children.map Child.key = s.runner.children.map Child.key)
    {c' : Child J} (hc' : c' ∈ s'.runner.children) :
    ∃ c ∈ s.runner.children, c.job = c'.job ∧ c.isFinished = c'.isFinished := by
  have hmem := List.mem_map_of_mem (f := Child.key) hc'
  rw [hkeys] at hmem
  obtain ⟨c, hc, he⟩ := List.mem_map.mp hmem
  exact ⟨c, hc, congrArg (fun k => k.2.1) he, congrArg (fun k => k.2.2) he⟩

theorem Wf.newlyFinished_of_key (hw : Wf s)
    (hkeys : s'.runner.children.map Child.key = s.runner.children.map Child.key) :
    s.newlyFinished s' = [] := by
  refine hw.newlyFinished_eq_nil fun c' hc' hfin d hd hid => ?_
  obtain ⟨c, hc, hjob, hf⟩ := mem_of_key hkeys hc'
  exact ⟨c, hc, by rw [hjob, hid], hf.trans hfin⟩

/-- A step in which no child is started, seen finished or ended, maybe the first of a round. -/
theorem Rounds.still (hx : Rounds (s, h)) {ns : List RoundNote}
    (hns : ∀ n ∈ ns, n = RoundNote.polled)
    (hkeys : s'.runner.children.map Child.key = s.runner.children.map Child.key)
    (hid : s'.runner.nextId = s.runner.nextId)
    (hinput : ∀ nz i pfd nf, s'.pc = .input nz i pfd nf →
      ns ≠ [] ∨ ∃ nz i pfd nf, s.pc = .input nz i pfd nf)
    (hfirst : ∀ pid, s'.pc = .reapPid pid → ∀ c ∈ s'.runner.children, c.pid = pid →
      s'.runner.findFinishedChild = some c) : Rounds (s', h ++ ns) := by
  have hseen : ∀ i k, SeenIn (h ++ ns) i k ↔ SeenIn h i k := by
    intro i k
    refine seenIn_append_of_notMem fun i hmem => ?_
    cases hns _ hmem
  have hnone : ∀ i, .ended i ∉ ns := by
    intro i hmem
    cases hns _ hmem
  have hended : ∀ i, .ended i ∈ h ++ ns ↔ .ended i ∈ h := fun i => ended_append_of_notMem hnone
  refine ⟨fun i j k hij hi hj pre post heq => ?_, fun i k hi => ?_, fun nz i pfd nf hpc id hi => ?_,
    fun i hi => ?_, hfirst, ?_⟩
  · obtain ⟨as, has⟩ := ended_split_of_notMem hnone heq
    exact hx.ordered i j k hij ((hseen i k).mp hi) ((hseen j k).mp hj) pre as has
  · obtain ⟨hk, hor⟩ := hx.seen i k ((hseen i k).mp hi)
    refine ⟨?_, hor.imp (hended i).mpr ?_⟩
    · rw [List.count_append]
      exact Nat.le_add_right_of_le hk
    · rintro ⟨c, hc, hcid, hfin⟩
      obtain ⟨c', hc', hjob, hf⟩ := mem_of_key hkeys.symm hc
      exact ⟨c', hc', by rw [hjob, hcid], hf.trans hfin⟩
  · rw [hended]
    have hi := (hseen _ _).mp hi
    by_cases hnil : ns = []
    · rw [hnil, List.append_nil] at hi
      rcases hinput nz i pfd nf hpc with hne | ⟨nz', i', pfd', nf', hpc'⟩
      · exact absurd hnil hne
      · exact hx.input nz' i' pfd' nf' hpc' id hi
    · -- nothing was seen yet in the round that begins
      have hpos : 0 < ns.count .polled := by
        obtain ⟨n, hn⟩ := List.exists_mem_of_ne_nil ns hnil
        exact List.count_pos_iff.mpr (hns n hn ▸ hn)
      have hk : (h ++ ns).count .polled ≤ h.count .polled := (hx.seen id _ hi).1
      rw [List.count_append] at hk
      omega
  · obtain ⟨hlt, hne⟩ := hx.ended i ((hended i).mp hi)
    refine ⟨by rw [hid]; exact hlt, fun c' hc' => ?_⟩
    obtain ⟨c, hc, hjob, -⟩ := mem_of_key hkeys hc'
    rw [← hjob]
    exact hne c hc
  · have hids : s'.runner.children.map (fun c => c.job.id) =
        s.runner.children.map fun c => c.job.id := by
      have hmap := congrArg (List.map fun k : Pid × Job J × Bool => k.2.1.id) hkeys
      rwa [List.map_map, List.map_map] at hmap
    show (s'.runner.children.map _).Pairwise _
    rw [hids]
    exact hx.sorted

/-- A child is started, with a new id. -/
theorem Rounds.begins (hx : Rounds (s, h)) (hw : Wf s) {c : Child J} (hpc' : s'.pc = .loop)
    (hid : s'.runner.nextId = s.runner.nextId + 1) (hjob : c.job.id = s.runner.nextId)
    (hch : s'.runner.children = s.runner.children ++ [c]) : Rounds (s', h) := by
  refine ⟨hx.ordered, fun i k hi => ?_, fun nz i pfd nf hpc => ?_, fun i hi => ?_,
    fun pid hpc => ?_, ?_⟩
  · obtain ⟨hk, hor⟩ := hx.seen i k hi
    refine ⟨hk, hor.imp_right ?_⟩
    rintro ⟨d, hd, hprop⟩
    refine ⟨d, ?_, hprop⟩
    rw [hch]
    exact List.mem_append_left _ hd
  · cases hpc'.symm.trans hpc
  · obtain ⟨hlt, hne⟩ := hx.ended i hi
    have hlt : i < s.runner.nextId := hlt
    refine ⟨by rw [hid]; exact Nat.lt_succ_of_lt hlt, fun d hd => ?_⟩
    rw [hch] at hd
    rcases List.mem_append.mp hd with hd | hd
    · exact hne d hd
    · rw [List.mem_singleton.mp hd, hjob]
      exact Nat.ne_of_gt hlt
  · cases hpc'.symm.trans hpc
  · show (s'.runner.children.map _).Pairwise _
    rw [hch, List.map_append, List.pairwise_append]
    refine ⟨hx.sorted, List.pairwise_singleton _ _, fun i hi j hj => ?_⟩
    obtain ⟨d, hd, rfl⟩ := List.mem_map.mp hi
    cases List.mem_singleton.mp hj
    show d.job.id < c.job.id
    rw [hjob]
    exact hw.lt d hd

/-- A child other than the one that is read stays. -/
theorem mem_set_of_ne {i : Nat} {c c' d : Child J} (hi : children[i]? = some c) (hd : d ∈ children)
    (hne : d ≠ c) : d ∈ children.set i c' := by
  obtain ⟨j, hj⟩ := List.mem_iff_getElem?.mp hd
  refine List.mem_iff_getElem?.mpr ⟨j, ?_⟩
  rw [List.getElem?_set_ne, hj]
  rintro rfl
  exact hne (Option.some.inj (hj.symm.trans hi))

/-- A child is read, and maybe seen finished. -/
theorem Rounds.reads (hx : Rounds (s, h)) {nz i nf : Nat} {pfd : List Revents}
    {c c' : Child J} (hpc : s.pc = .input nz i pfd nf)
    (hpc' : ∀ pid, s'.pc ≠ .reapPid pid) (hi : s.runner.children[i]? = some c)
    (hunfin : c.isFinished = false) (hjob : c'.job = c.job)
    (hid : s'.runner.nextId = s.runner.nextId)
    (hch : s'.runner.children = s.runner.children.set i c') {ns : List RoundNote}
    (hns : ∀ n ∈ ns, n = .seen c.job.id) (hfin : ns ≠ [] → c'.isFinished = true) :
    Rounds (s', h ++ ns) := by
  have hc : c ∈ s.runner.children := List.mem_of_getElem? hi
  have hc' : c' ∈ s'.runner.children := by
    obtain ⟨hlt, -⟩ := List.getElem?_eq_some_iff.mp hi
    rw [hch]
    exact List.mem_set hlt c'
  have hnone : ∀ i, .ended i ∉ ns := by
    intro i hmem
    cases hns _ hmem
  have hended : ∀ i, .ended i ∈ h ++ ns ↔ .ended i ∈ h := fun i => ended_append_of_notMem hnone
  have hnotEnded : .ended c.job.id ∉ h := fun hmem => (hx.ended _ hmem).2 c hc rfl
  have hcount : (h ++ ns).count .polled = h.count .polled := by
    rw [List.count_append, Nat.add_eq_left]
    refine List.count_eq_zero.mpr fun hmem => ?_
    cases hns _ hmem
  refine ⟨fun i j k hij hi hj pre post heq => ?_, fun i k hik => ?_, fun _ _ _ _ _ id hid' => ?_,
    fun i hi' => ?_, fun pid hpid => absurd hpid (hpc' pid), ?_⟩
  · -- a job that is ended was not seen in this step, and nothing ended was seen in this round
    obtain ⟨as, has⟩ := ended_split_of_notMem hnone heq
    have hj' : .ended j ∈ h := has ▸ List.mem_append_right _ List.mem_cons_self
    rcases seenIn_append_seen hns hj with hj | ⟨rfl, -, -⟩
    · rcases seenIn_append_seen hns hi with hi | ⟨rfl, rfl, -⟩
      · exact hx.ordered i j k hij hi hj pre as has
      · exact absurd hj' (hx.input _ _ _ _ hpc j hj)
    · exact absurd hj' hnotEnded
  · rw [hcount, hended]
    rcases seenIn_append_seen hns hik with hik | ⟨rfl, rfl, hne⟩
    · obtain ⟨hk, hor⟩ := hx.seen i k hik
      refine ⟨hk, hor.imp_right ?_⟩
      rintro ⟨d, hd, hdid, hdfin⟩
      refine ⟨d, ?_, hdid, hdfin⟩
      rw [hch]
      refine mem_set_of_ne hi hd fun he => ?_
      rw [he, hunfin] at hdfin
      cases hdfin
    · exact ⟨Nat.le_refl _, .inr ⟨c', hc', by rw [hjob], hfin hne⟩⟩
  · rw [hcount] at hid'
    rw [hended]
    rcases seenIn_append_seen hns hid' with hid' | ⟨rfl, -, -⟩
    · exact hx.input _ _ _ _ hpc id hid'
    · exact hnotEnded
  · obtain ⟨hlt, hne⟩ := hx.ended i ((hended i).mp hi')
    refine ⟨by rw [hid]; exact hlt, fun d hd => ?_⟩
    rw [hch] at hd
    rcases List.mem_or_eq_of_mem_set hd with hd | rfl
    · exact hne d hd
    · rw [hjob]
      exact hne c hc
  · have hjobs := congrArg (List.map Job.id) (map_job_set hi hjob)
    rw [List.map_map, List.map_map] at hjobs
    show (s'.runner.children.map _).Pairwise _
    rw [hch]
    exact hjobs.symm ▸ hx.sorted

/-- Every finished child was started after the one that is waited for. -/
theorem Rounds.first_le (hx : Rounds (s, h)) {c d : Child J} (hpc : s.pc = .reapPid c.pid)
    (hc : c ∈ s.runner.children) (hd : d ∈ s.runner.children) (hfin : d.isFinished = true) :
    c.job.id ≤ d.job.id := by
  obtain ⟨-, as, bs, hsplit, hbefore⟩ :=
    List.find?_eq_some_iff_append.mp (hx.first c.pid hpc c hc rfl)
  have hsplit : s.runner.children = as ++ c :: bs := hsplit
  have hsorted : (s.runner.children.map fun c => c.job.id).Pairwise (· < ·) := hx.sorted
  rw [hsplit, List.map_append, List.map_cons, List.pairwise_append, List.pairwise_cons] at hsorted
  rw [hsplit] at hd
  rcases List.mem_append.mp hd with hd | hd
  · have hunfin := hbefore d hd
    rw [hfin] at hunfin
    cases hunfin
  · rcases List.mem_cons.mp hd with rfl | hd
    · exact Nat.le_refl _
    · exact Nat.le_of_lt (hsorted.2.1.1 _ (List.mem_map_of_mem hd))

/-- The first of the finished children is reaped. -/
theorem Rounds.reaps (hx : Rounds (s, h)) (hw : Wf s) {c : Child J} {as bs : List (Child J)}
    (hpc : s.pc = .reapPid c.pid) (hpc' : s'.pc = s.pc)
    (hsplit : s.runner.children = as ++ c :: bs) (hid : s'.runner.nextId = s.runner.nextId)
    (hch : s'.runner.children = as ++ bs) : Rounds (s', h ++ [.ended c.job.id]) := by
  have hc : c ∈ s.runner.children := by
    rw [hsplit]
    exact List.mem_append_right _ List.mem_cons_self
  have hrest : ∀ d ∈ s'.runner.children, d ∈ s.runner.children ∧ d.job.id ≠ c.job.id := by
    rw [hch]
    exact fun d hd => hw.of_split hsplit hd
  have hseen : ∀ i k, SeenIn (h ++ [.ended c.job.id]) i k ↔ SeenIn h i k := by
    intro i k
    refine seenIn_append_of_notMem fun i hmem => ?_
    cases List.mem_singleton.mp hmem
  have hcount : (h ++ [RoundNote.ended c.job.id]).count .polled = h.count .polled := by
    rw [List.count_append]
    rfl
  refine ⟨fun i j k hij hi hj pre post heq => ?_, fun i k hi => ?_, fun _ _ _ _ hpc₁ => ?_,
    fun i hi => ?_, fun pid hpid d hd hdpid => ?_, ?_⟩
  · have hi := (hseen i k).mp hi
    rcases ended_split_of_ended heq with ⟨as', has⟩ | ⟨rfl, rfl⟩
    · exact hx.ordered i j k hij hi ((hseen j k).mp hj) pre as' has
    · rcases (hx.seen i k hi).2 with hended | ⟨d, hd, rfl, hfin⟩
      · exact hended
      · exact absurd hij (Nat.not_lt.mpr (hx.first_le hpc hc hd hfin))
  · rw [hcount]
    obtain ⟨hk, hor⟩ := hx.seen i k ((hseen i k).mp hi)
    refine ⟨hk, ?_⟩
    rcases hor with hended | ⟨d, hd, hdid, hfin⟩
    · exact .inl (List.mem_append_left _ hended)
    · by_cases he : d = c
      · rw [← hdid, he]
        exact .inl (List.mem_append_right _ List.mem_cons_self)
      · refine .inr ⟨d, ?_, hdid, hfin⟩
        rw [hsplit, List.mem_append, List.mem_cons] at hd
        rw [hch, List.mem_append]
        exact hd.imp_right fun hd => hd.resolve_left he
  · cases hpc.symm.trans (hpc'.symm.trans hpc₁)
  · rcases List.mem_append.mp hi with hi | hi
    · obtain ⟨hlt, hne⟩ := hx.ended i hi
      exact ⟨by rw [hid]; exact hlt, fun d hd => hne d (hrest d hd).1⟩
    · cases List.mem_singleton.mp hi
      exact ⟨by rw [hid]; exact hw.lt c hc, fun d hd => (hrest d hd).2⟩
  · -- the child that was waited for is gone
    obtain rfl : c.pid = pid := by
      cases hpc.symm.trans (hpc'.symm.trans hpid)
      rfl
    obtain ⟨hd', hne⟩ := hrest d hd
    exact absurd (congrArg (fun e => e.job.id) (hw.eq_of_pid hd' hc hdpid)) hne
  · have hsorted : (s.runner.children.map fun c => c.job.id).Pairwise (· < ·) := hx.sorted
    rw [hsplit] at hsorted
    show (s'.runner.children.map _).Pairwise _
    rw [hch]
    refine hsorted.sublist (List.Sublist.map _ ?_)
    exact List.Sublist.append_left (List.sublist_cons_self c bs) as

theorem polled_of_ofLabel : ∀ n ∈ ofLabel l, n = RoundNote.polled := by
  intro n hn
  unfold ofLabel at hn
  split at hn
  · exact List.mem_singleton.mp hn
  · cases hn

/-- With its last step `run_tests` leaves the children as they are. -/
theorem Rounds.stops (hx : Rounds (s, h)) (hw : Wf s)
    (hch : Changes s s' s.runner.children calls kills) (hjobs : SameJobs s s')
    (hends : calls.filterMap RoundNote.ofEnd = []) (hpc : s'.pc.stopped = true) :
    Rounds (s', h ++ s.roundNotes l s') := by
  have hkeys : s'.runner.children.map Child.key = s.runner.children.map Child.key := by
    rw [hch.children]
  rw [roundNotes_of_changes hch, hw.newlyFinished_of_key hkeys, List.map_nil, List.append_nil,
    hends, List.append_nil]
  refine hx.still polled_of_ofLabel hkeys hjobs.1 (fun _ _ _ _ hpc' => ?_) fun _ hpc' => ?_
  · rw [hpc'] at hpc
    cases hpc
  · rw [hpc'] at hpc
    cases hpc

/-- Nothing changes that the children or the listeners could see. -/
theorem Rounds.quiet (hx : Rounds (s, h)) (hw : Wf s)
    (hpc : s'.pc = s.pc ∨ s.pc.stopped = false ∧ s.MovesTo l s'.pc) (hjobs : SameJobs s s')
    (hch : Changes s s' s.runner.children [] []) : Rounds (s', h ++ s.roundNotes l s') := by
  have hkeys : s'.runner.children.map Child.key = s.runner.children.map Child.key := by
    rw [hch.children]
  have hfind : s'.runner.findFinishedChild = s.runner.findFinishedChild := by
    rw [Runner.findFinishedChild, hch.children]
    rfl
  rw [roundNotes_of_changes hch, hw.newlyFinished_of_key hkeys, List.map_nil, List.append_nil,
    List.filterMap_nil, List.append_nil]
  refine hx.still polled_of_ofLabel hkeys hjobs.1 (fun nz i pfd nf hpc' => ?_)
    fun pid hpc' d hd hdpid => ?_
  · rcases hpc with hpc | ⟨-, hto⟩
    · exact .inr ⟨nz, i, pfd, nf, hpc ▸ hpc'⟩
    · rw [hpc'] at hto
      rcases hto with ⟨start, rfl⟩ | hto
      · exact .inl (List.cons_ne_nil _ _)
      · exact .inr hto
  · rw [hfind]
    rw [hch.children] at hd
    rcases hpc with hpc | ⟨-, hto⟩
    · exact hx.first pid (hpc ▸ hpc') d hd hdpid
    · rw [hpc'] at hto
      obtain ⟨-, c, hc, hcpid⟩ := hto
      rw [hc, hw.eq_of_pid hd (List.mem_of_find?_eq_some hc) (hdpid.trans hcpid.symm)]

/-- Children that took too long are told of and killed. -/
theorem Rounds.timesOut (hx : Rounds (s, h)) (hw : Wf s) {start now : Int} {nz : Nat}
    (hpc' : s'.pc = .poll nz) (hjobs : SameJobs s s')
    (hch : Changes s s' (s.runner.children.map (Child.timedOut now))
      (s.runner.children.filterMap (Child.timeoutCall now)) kills) :
    Rounds (s', h ++ s.roundNotes (.poll start (.timedOut now)) s') := by
  have hkeys : s'.runner.children.map Child.key = s.runner.children.map Child.key := by
    rw [hch.children, List.map_map]
    exact List.map_congr_left fun c _ => c.timedOut_key now
  have hends :
      (s.runner.children.filterMap (Child.timeoutCall now)).filterMap RoundNote.ofEnd = [] :=
    (eventsOf_timeoutCall now _).ofEnd
  rw [roundNotes_of_changes hch, hw.newlyFinished_of_key hkeys, hends]
  show Rounds (s', h ++ [])
  refine hx.still (fun _ hn => absurd hn List.not_mem_nil) hkeys hjobs.1
    (fun _ _ _ _ hpc => ?_) fun _ hpc => ?_
  · cases hpc'.symm.trans hpc
  · cases hpc'.symm.trans hpc

/-- The child that is read is the only one that is seen finished. -/
theorem Wf.newlyFinished_set (hw : Wf s) {i : Nat} {c c' : Child J} (hjob : c'.job = c.job)
    (hch : s'.runner.children = s.runner.children.set i c') {d : Child J}
    (hd : d ∈ s.newlyFinished s') : d.job.id = c.job.id ∧ c'.isFinished = true := by
  obtain ⟨hd, hfin, e, he, hid, hunfin⟩ := mem_newlyFinished.mp hd
  rw [hch] at hd
  rcases List.mem_or_eq_of_mem_set hd with hd | rfl
  · rw [hw.eq_of_id he hd hid, hfin] at hunfin
    cases hunfin
  · exact ⟨by rw [hjob], hfin⟩

/-- **A step keeps the order of the rounds**, where no child is reaped that was not seen
finished. -/
theorem Rounds.step (hx : Rounds (s, h)) (hw : Wf s) (hrest : s.pc ≠ .reapRest)
    (hany : ∀ nz num, s.pc ≠ .reapAny nz num) (hs : s.step l = some s') :
    Rounds (s', h ++ s.roundNotes l s') := by
  cases step_effect hs with
  | quiet pc jobs hch => exact hx.quiet hw pc jobs hch
  | @begins item todo pid now c label pc pc' room before after nextId job state result hch =>
      have hnone : s.newlyFinished s' = [] := by
        refine hw.newlyFinished_eq_nil fun d hd hfin e he hid => ?_
        rw [hch.children] at hd
        rcases List.mem_append.mp hd with hd | hd
        · exact ⟨d, hd, hid.symm, hfin⟩
        · rw [List.mem_singleton.mp hd, Child.isFinished, state] at hfin
          cases hfin
      rw [roundNotes_of_changes hch, hnone, label]
      show Rounds (s', h ++ [])
      rw [List.append_nil]
      exact hx.begins hw pc' nextId (congrArg Job.id job) hch.children
  | beginFails pc pc' room jobs hch => exact hx.stops hw hch jobs rfl (by rw [pc']; rfl)
  | @timesOut start now label pc pc' jobs hch =>
      obtain ⟨nz, hpc'⟩ := pc'
      rw [label]
      exact hx.timesOut hw hpc' jobs hch
  | @reads nz i nf pfd pfd' nf' c c' evs label pc pc' at_i unfinished follows named jobs hch =>
      rw [roundNotes_of_changes hch, (eventsOf_map (List.mem_of_getElem? at_i) evs).ofEnd, label,
        List.append_nil]
      refine hx.reads pc (fun pid hpc => ?_) at_i unfinished follows.job jobs.1 hch.children
        (fun n hn => ?_) fun hne => ?_
      · cases pc'.symm.trans hpc
      · obtain ⟨d, hd, rfl⟩ := List.mem_map.mp hn
        rw [(hw.newlyFinished_set follows.job hch.children hd).1]
      · obtain ⟨n, hn⟩ := List.exists_mem_of_ne_nil _ hne
        obtain ⟨d, hd, -⟩ := List.mem_map.mp hn
        exact (hw.newlyFinished_set follows.job hch.children hd).2
  | @reaps c st as bs label pc split jobs hch =>
      have hpc : s.pc = .reapPid c.pid ∧ s'.pc = s.pc := by
        rcases pc with ⟨hpc | hpc, hpc'⟩ | ⟨nz, num, -, hpc, -⟩
        · exact ⟨hpc, hpc'⟩
        · exact absurd hpc hrest
        · exact absurd hpc (hany nz num)
      have hnone : s.newlyFinished s' = [] := by
        refine hw.newlyFinished_eq_nil fun d hd hfin e he hid => ?_
        rw [hch.children] at hd
        exact ⟨d, (hw.of_split split hd).1, hid.symm, hfin⟩
      have hends : (c.reapCalls st).filterMap RoundNote.ofEnd = [.ended c.job.id] := by
        rw [Child.reapCalls]
        cases exitEvent c.pid st <;> rfl
      rw [roundNotes_of_changes hch, hnone, hends, label]
      exact hx.reaps hw hpc.1 hpc.2 split jobs.1 hch.children
  | finishes pc pc' jobs hch => exact hx.stops hw hch jobs rfl (by rw [pc']; rfl)

end

/-! ### Whole runs -/

/-- What the listeners of a `run_tests` are told between `begin` and `end`, with what happened in
its rounds. -/
structure CallsInOrder (r : Runner J) (plan : List J) (cs : List (Callback J))
    (notes : List RoundNote) : Prop where
  /-- every job is begun once, in plan order -/
  begun : begunJobs cs = jobsFrom r.nextId plan
  /-- and ended once -/
  ended : (endedJobs cs).Perm (jobsFrom r.nextId plan)
  /-- with its events in between -/
  allowed : Each Callback.Allowed cs
  rounds : RoundsOrdered notes
  serial : r.maxchildren = 1 →
    ∃ bs, List.Forall₂ IsBlock (jobsFrom r.nextId plan) bs ∧ cs = bs.flatten

section
variable {r : Runner J} {plan : List J} {s : Sys J} {notes : List RoundNote}
  {cs : List (Callback J)}

theorem Told.callsInOrder (h : Told r plan s cs) (hcounted : Counted r plan s)
    (hser : r.maxchildren = 1 → Serial r plan s cs) (hrounds : RoundsOrdered notes)
    (hpc : s.pc = .done) : CallsInOrder r plan cs notes := by
  have hexited : s.pc ≠ .exited := by rw [hpc]; decide
  have hcounts := hcounted.counts
  rw [hpc] at hcounts
  obtain ⟨hch, htodo⟩ := hcounts
  have hbegun := h.begun hexited
  rw [htodo, jobsFrom, List.append_nil] at hbegun
  refine ⟨hbegun, ?_, h.allowed, hrounds, fun hone => ?_⟩
  · have hended := (hcounted.countsChildren.done hpc).2
    rw [h.calls, if_pos hpc, endedJobs_append] at hended
    have hcs : endedJobs (Callback.begin :: (cs ++ [.finish])) = endedJobs cs := by
      show endedJobs (cs ++ [.finish]) = endedJobs cs
      rw [endedJobs_append]
      exact List.append_nil _
    rw [hcs] at hended
    exact (List.perm_append_left_iff _).mp hended
  · obtain ⟨js, bs, hbs, ⟨-, hcs⟩ | ⟨c, evs, hone', -⟩⟩ := hser hone
    · obtain ⟨rfl, hjs⟩ := hcs hexited
      rw [htodo, jobsFrom, List.append_nil] at hjs
      exact ⟨bs, hjs ▸ hbs, rfl⟩
    · rw [hch] at hone'
      cases hone'

/-- **The listeners are called in order**, in every run in which `poll()` is never interrupted by
`SIGCHLD`: when `run_tests` returns, every job of the plan was begun and ended once with its events
in between, and one at a time with one child at a time.  Unless a `fork` fails it can always still
return, once the children that were forked have exited. -/
theorem listeners_called_in_order (h1 : 1 ≤ r.maxchildren) (hm : r.maxchildren < 2 ^ 31)
    (hc : r.children = [])
    (h : Run (withHistory Sys.step Sys.roundNotes) (fun x l => notInterrupted x.1 l = true)
      (Sys.start r plan, []) (s, notes)) :
    (s.pc = .done → ∃ cs, s.runner.calls = r.calls ++ .begin :: (cs ++ [.finish]) ∧
      CallsInOrder r plan cs notes) ∧
    (s.pc ≠ .exited → ∃ t, Reaches s t ∧ t.pc = .done) := by
  have hinv : Calm r plan s ∧ Rounds (s, notes) ∧ ∃ cs, Told r plan s cs ∧
      (r.maxchildren = 1 → Serial r plan s cs) := by
    refine h.invariant (I := fun x => Calm r plan x.1 ∧ Rounds x ∧ ∃ cs, Told r plan x.1 cs ∧
      (r.maxchildren = 1 → Serial r plan x.1 cs)) ?_ ?_
    · exact ⟨calm_start hc plan, rounds_start hc plan, [], told_start hc plan,
        fun _ => serial_start hc plan⟩
    · rintro ⟨u, notes⟩ l ⟨v, notes'⟩ ⟨hcalm, hrounds, cs, htold, hser⟩ hP hs
      obtain ⟨hs, hnotes⟩ := withHistory_eq_some.mp hs
      have hnotes : notes' = notes ++ u.roundNotes l v := hnotes
      subst hnotes
      obtain ⟨new, htold', hser'⟩ := htold.step hcalm.wf hcalm.counted hs
      have hrest : u.pc ≠ .reapRest := by
        intro hpc
        have hcounts := hcalm.counted.counts
        rw [hpc] at hcounts
        exact hcounts
      exact ⟨hcalm.step h1 hm hP hs, hrounds.step hcalm.wf hrest hcalm.any hs, cs ++ new, htold',
        fun hone => hser' hone (hser hone)⟩
  obtain ⟨hcalm, hrounds, cs, htold, hser⟩ := hinv
  refine ⟨fun hpc => ⟨cs, ?_, ?_⟩, fun hpc => hcalm.reaches_done h1 hm hpc⟩
  · rw [htold.calls, if_pos hpc]
  · exact htold.callsInOrder hcalm.counted hser hrounds.ordered hpc

end

/-- Two jobs whose children hang up in the same round. -/
theorem listeners_called_in_order_two_jobs :
    ∃ (s : Sys Unit) (notes : List RoundNote), s.pc = .done ∧
      .ended 2 ∈ notes ∧ SeenIn notes 1 1 ∧ SeenIn notes 2 1 ∧
      ∃ cs, s.runner.calls = .begin :: (cs ++ [.finish]) ∧
        CallsInOrder ({ maxchildren := 2 } : Runner Unit) [(), ()] cs notes := by
  let ls : List Label := [.fork 100 0, .fork 101 0, .tau, .close 101, .close 100,
    .exit 101 (.exited 0), .exit 100 (.exited 0), .poll 0 .ready, .tau, .tau, .tau, .tau,
    .waited 100, .waitNone, .tau, .waited 101, .waitNone, .tau, .tau]
  have hrun : (execute (withHistory Sys.step Sys.roundNotes) (fun x => notInterrupted x.1)
      (Sys.start ({ maxchildren := 2 } : Runner Unit) [(), ()], []) ls).any
      (fun x => x.1.pc = .done ∧ x.2 = [.polled, .seen 1, .seen 2, .ended 1, .ended 2]) =
        true := by decide +kernel
  obtain ⟨⟨s, notes⟩, hs, hd⟩ := Run.of_execute hrun
  obtain ⟨hpc, hnotes⟩ := of_decide_eq_true hd
  have hnotes : notes = [.polled, .seen 1, .seen 2, .ended 1, .ended 2] := hnotes
  refine ⟨s, notes, hpc, ?_, ?_, ?_,
    (listeners_called_in_order (by decide) (by decide) rfl hs).1 hpc⟩
  · rw [hnotes]
    decide
  · exact ⟨[.polled], [.seen 2, .ended 1, .ended 2], hnotes, rfl⟩
  · exact ⟨[.polled, .seen 1], [.ended 1, .ended 2], hnotes, rfl⟩

end NovaProva
