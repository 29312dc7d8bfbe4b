import NovaProva.Spiegel.Intercept

/-!
# Spiegel — Failure

`intercept_t::install` when the platform cannot patch the function.  The intercept is registered
before the attempt and stays so after it, and only the first intercept of an address patches the
code: the address counts as intercepted from then on, without a trap, and later mocks of the
function do not try again.
-/

namespace NovaProva

/-- A process that has made some calls, each with the outcome of its system calls. -/
def InterceptState.runWith (vg : Bool) (s : InterceptState)
    (calls : List (Syscalls × InterceptCall)) : InterceptState :=
  calls.foldl (fun s c => c.2.apply vg c.1 s) s

/-- The call of `install_intercept` that `install` makes for the first intercept at an address. -/
def InterceptState.patch (vg : Bool) (sc : Syscalls) (i : Intercept) (s : InterceptState) :
    Int × IntState × InterceptState :=
  s.installIntercept vg sc i.addr (s.getAddrstate i.addr).state

/-- `install` comes to patch the code, and that fails. -/
def PatchFails (vg : Bool) (sc : Syscalls) (i : Intercept) (s : InterceptState) : Prop :=
  (s.getAddrstate i.addr).intercepts = [] ∧ (s.patch vg sc i).1 < 0

/-- What a failed `install` should do: it says so, leaves the registry and the text as they were,
and a later one at the address patches the code as if nothing had happened. -/
structure FailsCleanly (vg : Bool) (sc : Syscalls) (i : Intercept) (s : InterceptState) : Prop where
  negative : (s.install vg sc i).1 < 0
  registry : (s.install vg sc i).2.installed = s.installed
  intercepted : ∀ a, (s.install vg sc i).2.isIntercepted a = s.isIntercepted a
  text : (s.install vg sc i).2.text = s.text
  retried : ∀ (j : Intercept) (sc' : Syscalls), j.addr = i.addr →
    let s' := (s.install vg sc i).2
    (s'.install vg sc' j).1 = (s'.patch vg sc' j).1 ∧
      (s'.install vg sc' j).2.text = (s'.patch vg sc' j).2.2.text

/-! ### The registry -/

/-- No entry of the registry is without intercepts. -/
def NoneEmpty (s : InterceptState) : Prop := ∀ a as, s.installed a = some as → as.intercepts ≠ []

section
variable {s : InterceptState} {vg : Bool} {sc : Syscalls}

theorem textWrite_installed (sc : Syscalls) (dst : Addr) (b : UInt8) (s : InterceptState) :
    (s.textWrite sc dst b).2.installed = s.installed := by
  rw [InterceptState.textWrite]
  split <;> rfl

theorem installIntercept_installed (vg : Bool) (sc : Syscalls) (a : Addr) (st : IntState)
    (s : InterceptState) : (s.installIntercept vg sc a st).2.2.installed = s.installed := by
  rw [InterceptState.installIntercept]
  split
  · rfl
  · simp only
    split
    · exact textWrite_installed ..
    · split
      · exact textWrite_installed ..
      · rfl

theorem uninstallIntercept_installed (sc : Syscalls) (a : Addr) (st : IntState)
    (s : InterceptState) : (s.uninstallIntercept sc a st).2.installed = s.installed := by
  rw [InterceptState.uninstallIntercept]
  split
  · rfl
  · split
    · rfl
    · exact textWrite_installed ..

/-- What `install` leaves registered at its address, whether it fails or not. -/
theorem install_installed (vg : Bool) (sc : Syscalls) (i : Intercept) (s : InterceptState) :
    ∃ st, (s.install vg sc i).2.installed = Function.update s.installed i.addr
      (some ⟨st, (s.getAddrstate i.addr).intercepts ++ [i]⟩) := by
  rw [InterceptState.install]
  simp only
  split
  · refine ⟨(s.patch vg sc i).2.1, ?_⟩
    show Function.update (s.patch vg sc i).2.2.installed i.addr _ = _
    rw [InterceptState.patch, installIntercept_installed]
  · exact ⟨(s.getAddrstate i.addr).state, rfl⟩

theorem uninstall_installed (sc : Syscalls) (i : Intercept) (s : InterceptState) :
    (s.uninstall sc i).2.installed = Function.update s.installed i.addr
      (if (s.getAddrstate i.addr).intercepts.erase i = [] then none
        else some ⟨(s.getAddrstate i.addr).state, (s.getAddrstate i.addr).intercepts.erase i⟩) := by
  rw [InterceptState.uninstall]
  simp only [List.length_eq_zero_iff]
  split
  · show Function.update (s.uninstallIntercept sc i.addr _).2.installed i.addr none = _
    rw [uninstallIntercept_installed]
  · rfl

theorem NoneEmpty.apply (h : NoneEmpty s) (c : InterceptCall) : NoneEmpty (c.apply vg sc s) := by
  intro a as has
  cases c with
  | install i =>
      obtain ⟨st, he⟩ := install_installed vg sc i s
      rw [InterceptCall.apply, he] at has
      by_cases ha : a = i.addr
      · rw [ha, Function.update_self] at has
        cases has
        exact List.append_ne_nil_of_right_ne_nil _ (List.cons_ne_nil _ _)
      · rw [Function.update_of_ne ha] at has
        exact h a as has
  | uninstall i =>
      rw [InterceptCall.apply, uninstall_installed] at has
      by_cases ha : a = i.addr
      · rw [ha, Function.update_self] at has
        split at has
        · cases has
        case isFalse hne =>
          cases has
          exact hne
      · rw [Function.update_of_ne ha] at has
        exact h a as has

theorem noneEmpty_runWith (vg : Bool) (orig : Addr → UInt8)
    (calls : List (Syscalls × InterceptCall)) :
    NoneEmpty ((InterceptState.fresh orig).runWith vg calls) := by
  have hfold : ∀ (calls : List (Syscalls × InterceptCall)) (s : InterceptState), NoneEmpty s →
      NoneEmpty (s.runWith vg calls) := by
    intro calls
    induction calls with
    | nil => exact fun s hs => hs
    | cons c calls ih => exact fun s hs => ih _ (hs.apply c.2)
  exact hfold calls _ fun _ _ h => nomatch h

/-! ### A failed `install` -/

theorem NoneEmpty.isIntercepted (h : NoneEmpty s) {a : Addr}
    (ha : (s.getAddrstate a).intercepts = []) : s.isIntercepted a = false := by
  rw [InterceptState.isIntercepted]
  cases hs : s.installed a with
  | none => rfl
  | some as =>
      rw [InterceptState.getAddrstate, hs] at ha
      exact absurd ha (h a as hs)

theorem install_isIntercepted (vg : Bool) (sc : Syscalls) (i : Intercept) (s : InterceptState) :
    (s.install vg sc i).2.isIntercepted i.addr = true := by
  obtain ⟨st, he⟩ := install_installed vg sc i s
  rw [InterceptState.isIntercepted, he, Function.update_self]
  rfl

theorem PatchFails.negative {i : Intercept} (h : PatchFails vg sc i s) :
    (s.install vg sc i).1 < 0 := by
  have hone : ((s.getAddrstate i.addr).intercepts ++ [i]).length = 1 := by rw [h.1]; rfl
  rw [InterceptState.install]
  simp only [if_pos hone]
  exact h.2

/-- Behind a registered intercept `install` does not touch the code. -/
theorem install_again (vg : Bool) (sc sc' : Syscalls) {i j : Intercept} (ha : j.addr = i.addr)
    (s : InterceptState) :
    ((s.install vg sc i).2.install vg sc' j).1 = 0 ∧
      ((s.install vg sc i).2.install vg sc' j).2.text = (s.install vg sc i).2.text := by
  obtain ⟨st, he⟩ := install_installed vg sc i s
  generalize (s.install vg sc i).2 = s' at he
  have has : s'.getAddrstate j.addr = ⟨st, (s.getAddrstate i.addr).intercepts ++ [i]⟩ := by
    rw [InterceptState.getAddrstate, he, ha, Function.update_self]
    rfl
  have hlen : ¬ ((s.getAddrstate i.addr).intercepts ++ [i] ++ [j]).length = 1 := by simp
  rw [InterceptState.install]
  simp only [has, if_neg hlen]
  exact ⟨trivial, rfl⟩

/-- **A failed `install` is not undone**, whatever was installed and uninstalled before it and
whatever failed then: it returns the failure, but the address is intercepted afterwards and was not
before, and every later `install` at it returns zero and leaves the code alone. -/
theorem failed_install_not_undone (orig : Addr → UInt8) (vg : Bool)
    (calls : List (Syscalls × InterceptCall)) {sc : Syscalls} {i : Intercept}
    (hfails : PatchFails vg sc i ((InterceptState.fresh orig).runWith vg calls)) :
    let s := (InterceptState.fresh orig).runWith vg calls
    let s' := (s.install vg sc i).2
    ¬ FailsCleanly vg sc i s ∧ (s.install vg sc i).1 < 0 ∧
      s.isIntercepted i.addr = false ∧ s'.isIntercepted i.addr = true ∧
      ∀ (j : Intercept) (sc' : Syscalls), j.addr = i.addr →
        (s'.install vg sc' j).1 = 0 ∧ (s'.install vg sc' j).2.text = s'.text := by
  intro s s'
  have hbefore := (noneEmpty_runWith vg orig calls).isIntercepted hfails.1
  have hafter := install_isIntercepted vg sc i s
  refine ⟨fun h => ?_, hfails.negative, hbefore, hafter,
    fun j sc' ha => install_again vg sc sc' ha s⟩
  have hsame := h.intercepted i.addr
  rw [hafter, show s.isIntercepted i.addr = false from hbefore] at hsame
  cases hsame

/-- `mprotect` fails once; the next mock of the function is not installed either. -/
theorem failed_install_not_undone_mprotect :
    let s := (InterceptState.fresh fun _ => insnPushRbp).runWith false []
    let s' := (s.install false { mapWritable := false } ⟨1, 16⟩).2
    (s'.install false {} ⟨2, 16⟩).1 = 0 ∧
      (s'.install false {} ⟨2, 16⟩).2.text 16 = insnPushRbp := by
  intro s s'
  have hfails : PatchFails false { mapWritable := false } ⟨1, 16⟩ s := ⟨rfl, by decide⟩
  obtain ⟨hzero, htext⟩ :=
    (failed_install_not_undone (fun _ => insnPushRbp) false [] hfails).2.2.2.2 ⟨2, 16⟩ {} rfl
  refine ⟨hzero, ?_⟩
  rw [show (s'.install false {} ⟨2, 16⟩).2.text = s'.text from htext]
  rfl

/-- The first mock of a process whose `mprotect` fails. -/
theorem failed_install_registered :
    let s := InterceptState.fresh fun _ => insnPushRbp
    PatchFails false { mapWritable := false } ⟨1, 16⟩ s ∧
      ¬ FailsCleanly false { mapWritable := false } ⟨1, 16⟩ s := by
  refine ⟨⟨rfl, by decide⟩, fun h => ?_⟩
  exact absurd (h.intercepted 16) (by decide)

end

end NovaProva
