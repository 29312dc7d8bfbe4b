import NovaProva.Runner.Order
import Mathlib.Algebra.Order.BigOperators.Group.List

/-!
# Runner — Progress

In the runs in which `poll()` is never interrupted by `SIGCHLD`, nothing that has happened keeps
`run_tests` from returning: once the processes there are have closed their pipes and exited, the
parent reads, reaps and forks on until its plan is done (`Calm.reaches_done`).
-/

namespace NovaProva

variable {J : Type} {r : Runner J} {plan : List J} {s s' t u : Sys J} {l : Label}

/-- A state of such a run. -/
structure Calm (r : Runner J) (plan : List J) (s : Sys J) : Prop where
  wf : Wf s
  counted : Counted r plan s
  any : ∀ nz num, s.pc ≠ .reapAny nz num

theorem calm_start (hc : r.children = []) (plan : List J) : Calm r plan (Sys.start r plan) :=
  ⟨wf_start hc plan, counted_start hc plan, nofun⟩

/-- `reap_children(-1, WNOHANG)` is entered by an interrupted `poll()` only. -/
theorem Calm.step_any (h : Calm r plan s) (hP : notInterrupted s l = true)
    (hs : s.step l = some s') (nz num : Nat) : s'.pc ≠ .reapAny nz num := by
  intro hpc'
  cases step_effect hs with
  | quiet pc jobs hch =>
      rcases pc with pc | ⟨-, hto⟩
      · exact h.any nz num (pc ▸ hpc')
      · rw [hpc'] at hto
        rcases hto with ⟨start, rfl, hcaught⟩ | ⟨nz, num, hpc⟩
        · rw [notInterrupted, hcaught] at hP
          cases hP
        · exact h.any nz num hpc
  | begins label pc pc' => cases hpc'.symm.trans pc'
  | beginFails pc pc' => cases hpc'.symm.trans pc'
  | timesOut label pc pc' =>
      obtain ⟨nz, pc'⟩ := pc'
      cases hpc'.symm.trans pc'
  | reads label pc pc' => cases hpc'.symm.trans pc'
  | reaps st label pc =>
      rcases pc with ⟨hpc | hpc, he⟩ | ⟨nz, num, -, hpc, -⟩
      · cases hpc'.symm.trans (he.trans hpc)
      · cases hpc'.symm.trans (he.trans hpc)
      · exact h.any nz num hpc
  | finishes pc pc' => cases hpc'.symm.trans pc'

section
variable (h1 : 1 ≤ r.maxchildren) (hm : r.maxchildren < 2 ^ 31)
include h1 hm

theorem Calm.step (h : Calm r plan s) (hP : notInterrupted s l = true)
    (hs : s.step l = some s') : Calm r plan s' := by
  have hsilent : noSilentExit s l = true := by
    unfold noSilentExit
    split
    · split
      next hpc =>
        exact absurd hpc (h.any _ _)
      · rfl
    · rfl
  exact ⟨h.wf.step hs, h.counted.step h.wf hm h1 hsilent hs, h.step_any hP hs⟩

end

/-- `t` can be reached from `s`. -/
def Reaches (s t : Sys J) : Prop := Run Sys.step (fun u l => notInterrupted u l = true) s t

theorem Calm.reaches (h : Calm r plan s) (h1 : 1 ≤ r.maxchildren) (hm : r.maxchildren < 2 ^ 31)
    (hst : Reaches s t) : Calm r plan t :=
  hst.invariant h fun _ _ _ hu hP hs => hu.step h1 hm hP hs

/-! ### The processes -/

/-- A process that has closed its pipe and exited. -/
def Proc.isGone (p : Proc) : Bool := !p.isOpen && p.status.isSome

/-- Every process has closed its pipe and exited. -/
def AllGone (s : Sys J) : Prop := ∀ p ∈ s.procs, p.isGone = true

/-- The parent has done nothing. -/
def SameParent (s t : Sys J) : Prop := t.runner = s.runner ∧ t.todo = s.todo ∧ t.pc = s.pc

theorem mem_setProc {p q : Proc} (hq : q ∈ (s.setProc p).procs) :
    q = p ∨ q ∈ s.procs ∧ q.pid ≠ p.pid := by
  obtain ⟨q', hq', he⟩ := List.mem_map.mp hq
  split at he
  · exact .inl he.symm
  case isFalse hne =>
    rw [← he]
    exact .inr ⟨hq', hne⟩

/-- A process closes its pipe and exits. -/
theorem reaches_gone {pid : Pid} {p : Proc} (hp : s.findProc pid = some p) :
    ∃ q t, q.pid = pid ∧ q.isGone = true ∧ Reaches s t ∧ SameParent s t ∧
      ∀ p ∈ t.procs, p = q ∨ p ∈ s.procs ∧ p.pid ≠ pid := by
  obtain rfl := findProc_pid hp
  have hclose : s.step (.close p.pid) = some (s.setProc { p with isOpen := false }) := by
    rw [Sys.step, hp]
    rfl
  have hfound := findProc_setProc_self (p := { p with isOpen := false }) hp rfl
  cases hst : p.status with
  | some st =>
      refine ⟨{ p with isOpen := false }, _, rfl, ?_, .single rfl hclose, ⟨rfl, rfl, rfl⟩,
        fun q hq => mem_setProc hq⟩
      simp [Proc.isGone, hst]
  | none =>
      have hexit : (s.setProc { p with isOpen := false }).step (.exit p.pid (.exited 0)) =
          some { (s.setProc { p with isOpen := false }).setProc
            { p with isOpen := false, status := some (.exited 0) } with
              caughtSigchld := true } := by
        rw [Sys.step, hfound, Option.bind_eq_bind, Option.bind_some, hst]
        rfl
      refine ⟨{ p with isOpen := false, status := some (.exited 0) }, _, rfl, rfl,
        .snoc (.single rfl hclose) rfl hexit, ⟨rfl, rfl, rfl⟩, fun q hq => ?_⟩
      rcases mem_setProc hq with rfl | ⟨hq, hne⟩
      · exact .inl rfl
      · rcases mem_setProc hq with rfl | hq
        · exact absurd rfl hne
        · exact .inr hq

theorem reaches_pids_gone (pids : List Pid) (s : Sys J) :
    ∃ t, Reaches s t ∧ SameParent s t ∧
      ∀ p ∈ t.procs, p.isGone = true ∨ p ∈ s.procs ∧ p.pid ∉ pids := by
  induction pids with
  | nil => exact ⟨s, .refl, ⟨rfl, rfl, rfl⟩, fun p hp => .inr ⟨hp, List.not_mem_nil⟩⟩
  | cons pid pids ih =>
      obtain ⟨t, hst, hsame, hprocs⟩ := ih
      cases hp : t.findProc pid with
      | none =>
          refine ⟨t, hst, hsame, fun p hmem => (hprocs p hmem).imp_right fun ⟨hps, hnot⟩ => ?_⟩
          refine ⟨hps, fun hcons => ?_⟩
          rcases List.mem_cons.mp hcons with he | hcons
          · have hnone := List.find?_eq_none.mp hp p hmem
            exact hnone (decide_eq_true he)
          · exact hnot hcons
      | some p =>
          obtain ⟨q, u, hq, hgone, htu, hsame', hprocs'⟩ := reaches_gone hp
          refine ⟨u, hst.trans htu, ⟨hsame'.1.trans hsame.1, hsame'.2.1.trans hsame.2.1,
            hsame'.2.2.trans hsame.2.2⟩, fun p' hp' => ?_⟩
          rcases hprocs' p' hp' with rfl | ⟨hp', hne⟩
          · exact .inl hgone
          · refine (hprocs p' hp').imp_right fun ⟨hps, hnot⟩ => ⟨hps, fun hcons => ?_⟩
            exact (List.mem_cons.mp hcons).elim hne hnot

/-- Every process closes its pipe and exits. -/
theorem reaches_allGone (s : Sys J) : ∃ t, Reaches s t ∧ SameParent s t ∧ AllGone t := by
  obtain ⟨t, hst, hsame, hprocs⟩ := reaches_pids_gone (s.procs.map Proc.pid) s
  refine ⟨t, hst, hsame, fun p hp => (hprocs p hp).resolve_right ?_⟩
  rintro ⟨hps, hnot⟩
  exact hnot (List.mem_map_of_mem hps)

/-! ### The parent -/

/-- The parent goes from `s` to `t` with no process left to wait for, and starts no child. -/
structure GoesTo (s t : Sys J) : Prop where
  run : Reaches s t
  gone : AllGone t
  todo : t.todo = s.todo
  le : t.runner.children.length ≤ s.runner.children.length

theorem GoesTo.trans (h : GoesTo s t) (h' : GoesTo t u) : GoesTo s u :=
  ⟨Run.trans h.run h'.run, h'.gone, h'.todo.trans h.todo, Nat.le_trans h'.le h.le⟩

theorem GoesTo.move (hg : AllGone s) {b : Bool} {pc : Pc} (hP : notInterrupted s l = true)
    (hs : s.step l = some { s with caughtSigchld := b, pc := pc }) :
    GoesTo s { s with caughtSigchld := b, pc := pc } :=
  ⟨.single hP hs, hg, rfl, Nat.le_refl _⟩

theorem AllGone.found (hg : AllGone s) {pid : Pid} {p : Proc} (hp : s.findProc pid = some p) :
    p.isOpen = false ∧ ∃ st, p.status = some st := by
  have hgone := hg p (List.mem_of_find?_eq_some hp)
  rw [Proc.isGone, Bool.and_eq_true, Bool.not_eq_true', Option.isSome_iff_exists] at hgone
  exact hgone

/-- `waitpid` returns a process that has exited. -/
theorem AllGone.reap (hg : AllGone s) (p : Proc) (st : Status) : AllGone (s.reap p st) :=
  fun q hq => hg q (List.mem_of_mem_eraseP hq)

section
variable (h1 : 1 ≤ r.maxchildren) (hm : r.maxchildren < 2 ^ 31)
include h1 hm

/-- The child that is waited for is reaped. -/
theorem Calm.reaps_pid (h : Calm r plan s) (hg : AllGone s) {pid : Pid}
    (hpc : s.pc = .reapPid pid) :
    ∃ t, GoesTo s t ∧ t.pc = .reapFinished ∧ ((∃ c ∈ s.runner.children, c.pid = pid) →
      t.runner.children.length < s.runner.children.length) := by
  -- on the processes, each with that pid being waited for
  induction hn : s.procs.length using Nat.strong_induction_on generalizing s with
  | _ n ih =>
      cases hp : s.findProc pid with
      | none =>
          have hs : s.step .waitNone = some { s with pc := .reapFinished } := by
            simp only [Sys.step, hpc, hp, Option.isNone_none, if_true]
          refine ⟨_, .move hg rfl hs, rfl, ?_⟩
          rintro ⟨c, hc, rfl⟩
          obtain ⟨p, hp', -⟩ := h.wf.procs c hc
          rw [hp] at hp'
          cases hp'
      | some p =>
          obtain ⟨-, st, hst⟩ := hg.found hp
          have hpid := findProc_pid hp
          have hmem := List.mem_of_find?_eq_some hp
          have hs : s.step (.waited pid) = some (s.reap p st) := by
            simp only [Sys.step, Sys.waitedStep, hp, Option.bind_eq_bind, Option.bind_some, hst,
              hpc, if_true]
          have hlen : (s.reap p st).procs.length < n := by
            show (s.procs.eraseP _).length < n
            rw [List.length_eraseP_of_mem hmem (by simp), hn]
            exact Nat.pred_lt (hn ▸ (List.length_pos_of_mem hmem).ne')
          obtain ⟨t, hgo, htpc, -⟩ := ih _ hlen (h.step h1 hm rfl hs) (hg.reap p st) hpc rfl
          have hrun : Reaches s (s.reap p st) := .single rfl hs
          have hle := hgo.le
          rcases s.runner.reap_cases p.pid st with ⟨hr, hno⟩ | ⟨c, as, bs, -, hch, -, hch'⟩
          · have hkeep : (s.reap p st).runner = s.runner := hr
            rw [hkeep] at hle
            refine ⟨t, ⟨Run.trans hrun hgo.run, hgo.gone, hgo.todo, hle⟩, htpc, ?_⟩
            rintro ⟨c, hc, hcpid⟩
            exact absurd (hcpid.trans hpid.symm) (hno c hc)
          · have hkeep : (s.reap p st).runner.children = as ++ bs := hch'
            have hlt : t.runner.children.length < s.runner.children.length := by
              rw [hkeep] at hle
              rw [hch]
              simp only [List.length_append, List.length_cons] at hle ⊢
              omega
            exact ⟨t, ⟨Run.trans hrun hgo.run, hgo.gone, hgo.todo, hlt.le⟩, htpc, fun _ => hlt⟩

/-- The finished children are reaped. -/
theorem Calm.reaps_finished (h : Calm r plan s) (hg : AllGone s) (hpc : s.pc = .reapFinished) :
    ∃ t, GoesTo s t ∧ t.pc = .loop ∧ (s.runner.findFinishedChild ≠ none →
      t.runner.children.length < s.runner.children.length) := by
  induction hn : s.runner.children.length using Nat.strong_induction_on generalizing s with
  | _ n ih =>
      cases hfind : s.runner.findFinishedChild with
      | none =>
          have hs : s.step .tau = some { s with pc := .loop } := by
            simp only [Sys.step, hpc, hfind]
          exact ⟨_, .move hg rfl hs, rfl, fun hne => absurd rfl hne⟩
      | some c =>
          have hs : s.step .tau =
              some { s with caughtSigchld := false, pc := .reapPid c.pid } := by
            simp only [Sys.step, hpc, hfind]
          have hmove : GoesTo s { s with caughtSigchld := false, pc := .reapPid c.pid } :=
            .move hg rfl hs
          obtain ⟨t, hst, htpc, hlt⟩ := (h.step h1 hm rfl hs).reaps_pid h1 hm hg rfl
          have hlt : t.runner.children.length < s.runner.children.length :=
            hlt ⟨c, List.mem_of_find?_eq_some hfind, rfl⟩
          have hst := hmove.trans hst
          obtain ⟨u, htu, hupc, -⟩ := ih _ (hn ▸ hlt) (h.reaches h1 hm hst.run) hst.gone htpc rfl
          exact ⟨u, hst.trans htu, hupc, fun _ => hn ▸ Nat.lt_of_le_of_lt htu.le hlt⟩

end

theorem handleCall_eof (res : Result) (bs : List UInt8) : ∃ k, handleCall res true bs = some k := by
  unfold handleCall
  split
  · exact ⟨_, rfl⟩
  · exact ⟨_, rfl⟩
  · exact ⟨_, rfl⟩
  · exact ⟨_, rfl⟩

/-- A process whose pipe is closed can be read. -/
theorem AllGone.input (hg : AllGone s) (hw : Wf s) {i : Nat} {c : Child J}
    (hi : s.runner.children[i]? = some c) (b : Bool) :
    ∃ q, (if b then s.input i c else some (s, c)) = some q ∧ AllGone q.1 := by
  cases b with
  | false => exact ⟨(s, c), rfl, hg⟩
  | true =>
      obtain ⟨p, hp, -⟩ := hw.procs c (List.mem_of_getElem? hi)
      have hclosed := (hg.found hp).1
      obtain ⟨k, hk⟩ := handleCall_eof c.result p.unread
      have hin : ∃ q, s.input i c = some q := by
        rw [Sys.input, hp, Option.bind_eq_bind, Option.bind_some, hclosed, Bool.not_false, hk]
        exact ⟨_, rfl⟩
      obtain ⟨⟨s₁, c₁⟩, hq⟩ := hin
      refine ⟨(s₁, c₁), hq, ?_⟩
      obtain ⟨p', k', hp', -, -, rfl⟩ := input_eq_some hq
      intro q hmem
      rcases mem_setProc hmem with rfl | ⟨hmem, -⟩
      · exact hg p' (List.mem_of_find?_eq_some hp')
      · exact hg q hmem

/-- A turn of the loop over the children. -/
theorem AllGone.inputStep (hg : AllGone s) (hw : Wf s) {nz i nf : Nat} {pfd : List Revents}
    {c : Child J} (hpc : s.pc = .input nz i pfd nf) (hi : s.runner.children[i]? = some c)
    (hf : c.isFinished = false) :
    ∃ v pfd' t nf', pfd = v :: pfd' ∧ s.step .tau = some t ∧ GoesTo s t ∧
      t.runner.children.length = s.runner.children.length ∧
      t.pc = .input nz (i + 1) pfd' nf' ∧ (nf ≠ 0 ∨ v.pollhup = true → nf' ≠ 0) := by
  obtain ⟨hlt, he⟩ := List.getElem?_eq_some_iff.mp hi
  -- `pfd_` has an entry for the child
  have haligned := hw.aligned nz i pfd nf hpc
  rw [List.drop_eq_getElem_cons hlt, he, List.filter_cons_of_pos (by simp [hf]),
    List.map_cons] at haligned
  cases pfd with
  | nil => cases haligned
  | cons v pfd' =>
      obtain ⟨⟨s₁, c₁⟩, hq, hgone⟩ := hg.input hw hi v.pollin
      have hs : s.step .tau = some { s₁ with
          runner := { s₁.runner with
            children := s₁.runner.children.set i (if v.pollhup then c₁.handleHangup else c₁) }
          pc := .input nz (i + 1) pfd'
            (nf + if (if v.pollhup then c₁.handleHangup else c₁).isFinished then 1 else 0) } := by
        simp only [Sys.step, hpc, Sys.inputStep, hi, hf, Bool.false_eq_true, if_false]
        rw [hq, Option.map_some]
      obtain ⟨-, -, kch, -, -, -, ktodo, -⟩ := input_frame hq hi
      have hlen : (s₁.runner.children.set i
          (if v.pollhup then c₁.handleHangup else c₁)).length = s.runner.children.length := by
        rw [List.length_set, kch, List.length_set]
      refine ⟨v, pfd', _, _, rfl, hs, ⟨.single rfl hs, hgone, ktodo, hlen.le⟩, hlen, rfl, ?_⟩
      rintro (hnf | hhup)
      · exact Nat.ne_of_gt (Nat.add_pos_left (Nat.pos_of_ne_zero hnf) _)
      · rw [hhup]
        exact Nat.succ_ne_zero nf

section
variable (h1 : 1 ≤ r.maxchildren) (hm : r.maxchildren < 2 ^ 31)
include h1 hm

/-- The children are read.  If one of them was seen finished or hangs up, the round ends with
reaping. -/
theorem Calm.reads (h : Calm r plan s) (hg : AllGone s) {nz i nf : Nat} {pfd : List Revents}
    (hpc : s.pc = .input nz i pfd nf) :
    ∃ t, GoesTo s t ∧ ((∃ nz, t.pc = .poll nz) ∨ t.pc = .reapFinished) ∧
      t.runner.children.length = s.runner.children.length ∧
      (nf ≠ 0 ∨ i < s.runner.children.length ∧ (∀ v ∈ pfd, v.pollhup = true) →
        t.pc = .reapFinished ∧ t.runner.findFinishedChild ≠ none) := by
  induction hn : s.runner.children.length - i generalizing s i pfd nf with
  | zero =>
      have hi : s.runner.children[i]? = none := List.getElem?_eq_none (by omega)
      have hs : s.step .tau = some (s.endRound nz nf) := by
        simp only [Sys.step, hpc, Sys.inputStep, hi]
      have hcounts := h.counted.counts
      rw [hpc] at hcounts
      by_cases hnf : nf = 0
      · rw [Sys.endRound, if_neg (by simpa using hnf)] at hs
        refine ⟨_, .move hg rfl hs, .inl ⟨nz, rfl⟩, rfl, ?_⟩
        rintro (hne | ⟨hlt, -⟩)
        · exact absurd hnf hne
        · omega
      · rw [Sys.endRound, if_pos hnf] at hs
        refine ⟨_, ⟨.single rfl hs, hg, rfl, Nat.le_refl _⟩, .inr rfl, rfl, fun _ => ⟨rfl, ?_⟩⟩
        rw [hcounts.2.2.1] at hnf
        obtain ⟨c, hc⟩ := List.exists_mem_of_length_pos (Nat.pos_of_ne_zero hnf)
        obtain ⟨hc, hfin⟩ := List.mem_filter.mp hc
        intro hnone
        exact List.find?_eq_none.mp hnone c hc hfin
  | succ n ih =>
      have hlt : i < s.runner.children.length := by omega
      have hi := List.getElem?_eq_getElem hlt
      have hcounts := h.counted.counts
      rw [hpc] at hcounts
      have hf : (s.runner.children[i]).isFinished = false :=
        hcounts.2.2.2 _ (by rw [List.drop_eq_getElem_cons hlt]; exact List.mem_cons_self)
      obtain ⟨v, pfd', t, nf', rfl, hs, hst, hlen, htpc, hnf'⟩ := hg.inputStep h.wf hpc hi hf
      obtain ⟨u, htu, hupc, hulen, hgood⟩ :=
        ih (h.step h1 hm rfl hs) hst.gone htpc (by rw [hlen]; omega)
      refine ⟨u, hst.trans htu, hupc, hulen.trans hlen, fun hcond => hgood (.inl (hnf' ?_))⟩
      exact hcond.imp_right fun hall => hall.2 v List.mem_cons_self

/-- Every child hangs up: some are seen finished and reaped. -/
theorem Calm.polls (h : Calm r plan s) (hg : AllGone s) {nz : Nat} (hpc : s.pc = .poll nz) :
    ∃ t, GoesTo s t ∧ t.pc = .loop ∧
      t.runner.children.length < s.runner.children.length := by
  have hcounts := h.counted.counts
  rw [hpc] at hcounts
  obtain ⟨hpos, hcount, hnone⟩ := hcounts
  have hpolled := polled_of_noneFinished hnone
  have hlen : 0 < s.runner.children.length := by omega
  have hhup : ∀ v ∈ s.runner.children.map s.revents, v.pollhup = true := by
    intro v hv
    obtain ⟨c, hc, rfl⟩ := List.mem_map.mp hv
    obtain ⟨p, hp, -⟩ := h.wf.procs c hc
    rw [Sys.revents, hp]
    simp [(hg.found hp).1]
  have hany : (s.runner.children.map s.revents).any (fun p => p.pollin || p.pollhup) = true := by
    obtain ⟨c, hc⟩ := List.exists_mem_of_length_pos hlen
    refine List.any_eq_true.mpr ⟨s.revents c, List.mem_map_of_mem hc, ?_⟩
    rw [hhup _ (List.mem_map_of_mem hc), Bool.or_true]
  obtain ⟨nz', hs⟩ : ∃ nz', s.step (.poll 0 .ready) =
      some { s with pc := .input nz' 0 (s.runner.children.map s.revents) 0 } := by
    refine ⟨(pollTimeout nz (waitTimeout 0 s.runner.children)).1, ?_⟩
    simp only [Sys.step, hpc, Sys.pollStep, hpolled]
    rw [if_neg (by omega), if_pos hany]
  have hmove : GoesTo s _ := .move hg rfl hs
  obtain ⟨t, hst, -, htlen, hgood⟩ := (h.step h1 hm rfl hs).reads h1 hm hg rfl
  obtain ⟨htpc, hfin⟩ := hgood (.inr ⟨hlen, hhup⟩)
  have hst := hmove.trans hst
  obtain ⟨u, htu, hupc, hlt⟩ := (h.reaches h1 hm hst.run).reaps_finished h1 hm hst.gone htpc
  have htlen : t.runner.children.length = s.runner.children.length := htlen
  exact ⟨u, hst.trans htu, hupc, htlen ▸ hlt hfin⟩

/-- From the head of its loop `run_tests` starts the next job, waits for children or returns. -/
theorem Calm.loops (h : Calm r plan s) (hg : AllGone s) (hpc : s.pc = .loop) :
    ∃ t, Reaches s t ∧ t.pc = .done := by
  induction hn : 2 * s.todo.length + s.runner.children.length using Nat.strong_induction_on
    generalizing s with
  | _ n ih =>
      have hcounts := h.counted.counts
      rw [hpc] at hcounts
      by_cases hfork : s.runner.nrunning < s.runner.maxchildren ∧ s.todo ≠ []
      · obtain ⟨hroom, htodo⟩ := hfork
        obtain ⟨item, todo, htodo⟩ := List.exists_cons_of_ne_nil htodo
        have hfresh : s.findProc ((s.procs.map Proc.pid).sum + 1) = none := by
          refine List.find?_eq_none.mpr fun p hp => ?_
          have hle := List.le_sum_of_mem (List.mem_map_of_mem (f := Proc.pid) hp)
          have hne : p.pid ≠ (s.procs.map Proc.pid).sum + 1 :=
            Nat.ne_of_lt (Nat.lt_succ_of_le hle)
          simpa using hne
        have hs : s.step (.fork ((s.procs.map Proc.pid).sum + 1) 0) =
            some (s.beginJob item todo ((s.procs.map Proc.pid).sum + 1) 0) := by
          simp only [Sys.step, hpc, htodo]
          rw [if_pos ⟨hroom, by rw [hfresh]; rfl⟩]
        have hrun : Reaches s _ := .single rfl hs
        obtain ⟨t, hst, ⟨hrunner, htodo', htpc⟩, hgone⟩ :=
          reaches_allGone (s.beginJob item todo ((s.procs.map Proc.pid).sum + 1) 0)
        have hst := Run.trans hrun hst
        have hlen : 2 * t.todo.length + t.runner.children.length < n := by
          rw [htodo', hrunner, ← hn, htodo]
          show 2 * todo.length + (s.runner.children ++ [_]).length < _
          simp only [List.length_append, List.length_cons, List.length_nil]
          omega
        obtain ⟨u, htu, hupc⟩ := ih _ hlen (h.reaches h1 hm hst) hgone (htpc.trans hpc) rfl
        exact ⟨u, Run.trans hst htu, hupc⟩
      · by_cases hzero : s.runner.nrunning = 0
        · have hch : s.runner.children = [] :=
            List.length_eq_zero_iff.mp (hcounts.1.symm.trans hzero)
          have hs : s.step .tau = some s.finish := by
            simp only [Sys.step, hpc]
            rw [if_neg hfork, if_pos hzero, if_neg (by simp [hch])]
          exact ⟨_, .single rfl hs, rfl⟩
        · have hs : s.step .tau = some { s with pc := .poll 0 } := by
            simp only [Sys.step, hpc]
            rw [if_neg hfork, if_neg hzero]
          have hmove : GoesTo s { s with pc := .poll 0 } := .move hg rfl hs
          obtain ⟨t, hst, htpc, hlt⟩ := (h.step h1 hm rfl hs).polls h1 hm hg rfl
          have hlt : t.runner.children.length < s.runner.children.length := hlt
          have hst := hmove.trans hst
          have hlen : 2 * t.todo.length + t.runner.children.length < n := by
            rw [hst.todo]
            omega
          obtain ⟨u, htu, hupc⟩ := ih _ hlen (h.reaches h1 hm hst.run) hst.gone htpc rfl
          exact ⟨u, Run.trans hst.run htu, hupc⟩

/-- **`run_tests` can return** from every state of such a run, unless a `fork` failed. -/
theorem Calm.reaches_done (h : Calm r plan s) (hpc : s.pc ≠ .exited) :
    ∃ t, Reaches s t ∧ t.pc = .done := by
  obtain ⟨u, hsu, ⟨-, -, hpcu⟩, hg⟩ := reaches_allGone s
  have hu := h.reaches h1 hm hsu
  -- the parent gets to the head of its loop
  suffices hloop : u.pc = .done ∨ ∃ t, GoesTo u t ∧ t.pc = .loop by
    rcases hloop with hdone | ⟨t, hut, htpc⟩
    · exact ⟨u, hsu, hdone⟩
    · obtain ⟨v, htv, hv⟩ := (hu.reaches h1 hm hut.run).loops h1 hm hut.gone htpc
      exact ⟨v, Run.trans hsu (Run.trans hut.run htv), hv⟩
  have hpoll : ∀ {v : Sys J} {nz : Nat}, GoesTo u v → v.pc = .poll nz →
      ∃ t, GoesTo u t ∧ t.pc = .loop := by
    intro v nz huv hv
    obtain ⟨t, hvt, htpc, -⟩ := (hu.reaches h1 hm huv.run).polls h1 hm huv.gone hv
    exact ⟨t, huv.trans hvt, htpc⟩
  have hreap : ∀ {v : Sys J}, GoesTo u v → v.pc = .reapFinished →
      ∃ t, GoesTo u t ∧ t.pc = .loop := by
    intro v huv hv
    obtain ⟨t, hvt, htpc, -⟩ := (hu.reaches h1 hm huv.run).reaps_finished h1 hm huv.gone hv
    exact ⟨t, huv.trans hvt, htpc⟩
  have hrefl : GoesTo u u := ⟨.refl, hg, rfl, Nat.le_refl _⟩
  have hcounts := hu.counted.counts
  cases hupc : u.pc with
  | loop => exact .inr ⟨u, hrefl, hupc⟩
  | poll nz => exact .inr (hpoll hrefl hupc)
  | input nz i pfd nf =>
      obtain ⟨t, hut, ⟨nz', htpc⟩ | htpc, -⟩ := hu.reads h1 hm hg hupc
      · exact .inr (hpoll hut htpc)
      · exact .inr (hreap hut htpc)
  | reapAny nz num => exact absurd hupc (hu.any nz num)
  | reapFinished => exact .inr (hreap hrefl hupc)
  | reapPid pid =>
      obtain ⟨t, hut, htpc, -⟩ := hu.reaps_pid h1 hm hg hupc
      exact .inr (hreap hut htpc)
  | reapRest =>
      rw [hupc] at hcounts
      exact hcounts.elim
  | done => exact .inl rfl
  | exited => exact absurd (hpcu.symm.trans hupc) hpc
  | aborted =>
      rw [hupc] at hcounts
      exact hcounts.elim

end

end NovaProva
