import Mathlib.Logic.Function.Basic
import Mathlib.Data.List.Basic

/-!
# Spiegel — Intercept

`np/spiegel/intercept.cxx` with the Linux x86-64 functions that patch a trap instruction over the
first byte of a function, and the users of both in `np/testnode.cxx`: the mocks of a test node and
`np_mock`.

* `InterceptState` is the registry `installed_`, the text bytes and the platform's statics.
* `registered` says what a sequence of calls should leave registered: the intercepts in the order
  of their installation.
* `Patched` relates the two; it is kept by every call whose system calls succeed.
-/

namespace NovaProva

/-- `addr_t`. -/
abbrev Addr := Nat

/-! ### The platform -/

/-- `INSN_PUSH_RBP`. -/
def insnPushRbp : UInt8 := 0x55
/-- `INSN_INT3`. -/
def insnInt3 : UInt8 := 0xcc
/-- `INSN_HLT`. -/
def insnHlt : UInt8 := 0xf4

/-- The first byte of `trap_bytes`, which has no second. -/
def trapByte (usingInt3 : Bool) : UInt8 := if usingInt3 then insnInt3 else insnHlt

/-- A byte that `install_intercept` takes for an intercept. -/
def isTrap (b : UInt8) : Bool := b = insnHlt || b = insnInt3

/-- `inttype_t`: how a breakpoint is made. -/
inductive IntType where
  | unknown
  | pushbp
  | other
  deriving DecidableEq

/-- `intstate_t`. -/
structure IntState where
  type : IntType := .unknown
  orig : UInt8 := 0
  deriving DecidableEq

/-- An `intercept_t` object: its identity, and the address it intercepts. -/
structure Intercept where
  this : Nat
  addr : Addr
  deriving DecidableEq

/-- `addrstate_t`. -/
structure AddrState where
  state : IntState := {}
  intercepts : List Intercept := []
  deriving DecidableEq

/-- The registry, the text of the process, and the statics of the platform's code. -/
structure InterceptState where
  installed : Addr → Option AddrState := fun _ => none
  text : Addr → UInt8
  usingInt3 : Bool := false
  installedSigaction : Bool := false

/-- Which system calls succeed: `sigaction`, and the two `mprotect`s of `text_write`. -/
structure Syscalls where
  sigaction : Bool := true
  mapWritable : Bool := true
  restore : Bool := true

namespace InterceptState

/-- `text_write` of one byte. -/
def textWrite (sc : Syscalls) (dst : Addr) (b : UInt8) (s : InterceptState) :
    Int × InterceptState :=
  if !sc.mapWritable then (-1, s)
  else (if sc.restore then 0 else -1, { s with text := Function.update s.text dst b })

/-- `platform::install_intercept`; `vg` says that the process runs under Valgrind. -/
def installIntercept (vg : Bool) (sc : Syscalls) (addr : Addr) (state : IntState)
    (s : InterceptState) : Int × IntState × InterceptState :=
  if addr = 0 then (-1, state, s)
  else
    let b := s.text addr
    let state :=
      if b = insnPushRbp then { state with type := .pushbp }
      else if isTrap b then state       -- already intercepted
      else { state with type := .other }
    let state := { state with orig := b }
    let s' := { s with usingInt3 := s.usingInt3 || vg }
    if s.installedSigaction then
      let p := s.textWrite sc addr (trapByte s.usingInt3)
      (p.1, state, p.2)
    else if sc.sigaction then
      let p := { s' with installedSigaction := true }.textWrite sc addr (trapByte s'.usingInt3)
      (p.1, state, p.2)
    else (-1, state, s')

/-- `platform::uninstall_intercept`. -/
def uninstallIntercept (sc : Syscalls) (addr : Addr) (state : IntState) (s : InterceptState) :
    Int × InterceptState :=
  if addr = 0 then (-1, s)
  else if s.text addr ≠ trapByte s.usingInt3 then (-1, s)
  else s.textWrite sc addr state.orig

/-! ### The registry -/

/-- `get_addrstate`, with `create` set. -/
def getAddrstate (s : InterceptState) (addr : Addr) : AddrState := (s.installed addr).getD {}

/-- The entry of the map for an address, or none. -/
def setAddrstate (s : InterceptState) (addr : Addr) (as : Option AddrState) : InterceptState :=
  { s with installed := Function.update s.installed addr as }

/-- `intercept_t::install`. -/
def install (vg : Bool) (sc : Syscalls) (i : Intercept) (s : InterceptState) :
    Int × InterceptState :=
  let as := s.getAddrstate i.addr
  let as := { as with intercepts := as.intercepts ++ [i] }
  if as.intercepts.length = 1 then
    let p := s.installIntercept vg sc i.addr as.state
    (p.1, p.2.2.setAddrstate i.addr (some { as with state := p.2.1 }))
  else (0, s.setAddrstate i.addr (some as))

/-- `intercept_t::uninstall`. -/
def uninstall (sc : Syscalls) (i : Intercept) (s : InterceptState) : Int × InterceptState :=
  let as := s.getAddrstate i.addr
  let as := { as with intercepts := as.intercepts.erase i }
  if as.intercepts.length = 0 then
    let p := s.uninstallIntercept sc i.addr as.state
    (p.1, p.2.setAddrstate i.addr none)
  else (0, s.setAddrstate i.addr (some as))

/-- `intercept_t::is_intercepted`. -/
def isIntercepted (s : InterceptState) (addr : Addr) : Bool := (s.installed addr).isSome

/-- `intercept_t::dispatch_before`, where `before` is what an intercept does to a call. -/
def dispatchBefore {γ : Type} (before : Intercept → γ → γ) (s : InterceptState) (addr : Addr)
    (call : γ) : γ :=
  (s.installed addr).elim call fun as => as.intercepts.foldl (fun call i => before i call) call

end InterceptState

/-! ### Sequences of calls -/

/-- A call from the outside. -/
inductive InterceptCall where
  | install (i : Intercept)
  | uninstall (i : Intercept)
  deriving DecidableEq

namespace InterceptCall

/-- The intercept that a call is about. -/
def intercept : InterceptCall → Intercept
  | install i   => i
  | uninstall i => i

/-- What a call leaves, whatever it returns. -/
def apply (vg : Bool) (sc : Syscalls) (s : InterceptState) : InterceptCall → InterceptState
  | install i   => (s.install vg sc i).2
  | uninstall i => (s.uninstall sc i).2

/-- What a call should do to the list of the registered intercepts. -/
def register (live : List Intercept) : InterceptCall → List Intercept
  | install i   => live ++ [i]
  | uninstall i => live.erase i

end InterceptCall

/-- The registered intercepts after a sequence of calls, in the order of their installation. -/
def registered (calls : List InterceptCall) : List Intercept :=
  calls.foldl InterceptCall.register []

/-- The intercepts of a list that are at an address. -/
def atAddr (live : List Intercept) (a : Addr) : List Intercept := live.filter fun i => i.addr = a

/-- A process that has called neither `install` nor `uninstall`, with the text `orig`. -/
def InterceptState.fresh (orig : Addr → UInt8) : InterceptState := { text := orig }

/-- An address that can be intercepted in the text `orig`. -/
def Patchable (orig : Addr → UInt8) (a : Addr) : Prop := a ≠ 0 ∧ isTrap (orig a) = false

/-- The registry and the text for the registered intercepts `live` in the text `orig`. -/
structure Patched (orig : Addr → UInt8) (live : List Intercept) (s : InterceptState) : Prop where
  entries : ∀ a, (s.installed a).map (·.intercepts) =
    if atAddr live a = [] then none else some (atAddr live a)
  text : ∀ a, s.text a = if atAddr live a = [] then orig a else trapByte s.usingInt3
  saved : ∀ a as, s.installed a = some as → as.state.orig = orig a
  sigaction : s.installedSigaction = false → live = []

/-! ### What a call does -/

section Calls

variable {orig : Addr → UInt8} {live : List Intercept} {s : InterceptState} {vg : Bool}

theorem installed_setAddrstate_self (s : InterceptState) (addr : Addr) (as : Option AddrState) :
    (s.setAddrstate addr as).installed addr = as := Function.update_self ..

theorem installed_setAddrstate_of_ne (s : InterceptState) {addr a : Addr} (h : a ≠ addr)
    (as : Option AddrState) : (s.setAddrstate addr as).installed a = s.installed a :=
  Function.update_of_ne h ..

theorem Patched.installed_eq_none (h : Patched orig live s) {a : Addr} (ha : atAddr live a = []) :
    s.installed a = none := by
  have he := h.entries a
  rw [if_pos ha] at he
  exact Option.map_eq_none_iff.mp he

theorem Patched.installed_eq_some (h : Patched orig live s) {a : Addr} (ha : atAddr live a ≠ []) :
    ∃ as, s.installed a = some as ∧ as.intercepts = atAddr live a := by
  have he := h.entries a
  rw [if_neg ha] at he
  exact Option.map_eq_some_iff.mp he

/-- The intercepts `get_addrstate` finds are the registered ones. -/
theorem Patched.getAddrstate_intercepts (h : Patched orig live s) (a : Addr) :
    (s.getAddrstate a).intercepts = atAddr live a := by
  rw [InterceptState.getAddrstate]
  by_cases ha : atAddr live a = []
  · rw [h.installed_eq_none ha, ha]
    rfl
  · obtain ⟨as, has, hi⟩ := h.installed_eq_some ha
    rw [has]
    exact hi

theorem atAddr_append_self (live : List Intercept) (i : Intercept) :
    atAddr (live ++ [i]) i.addr = atAddr live i.addr ++ [i] := by
  simp [atAddr]

theorem atAddr_append_of_ne (live : List Intercept) {i : Intercept} {a : Addr} (h : a ≠ i.addr) :
    atAddr (live ++ [i]) a = atAddr live a := by
  simp [atAddr, h.symm]

theorem atAddr_erase_self (live : List Intercept) (i : Intercept) :
    atAddr (live.erase i) i.addr = (atAddr live i.addr).erase i := by
  rw [atAddr, atAddr, List.erase_filter]

theorem atAddr_erase_of_ne (live : List Intercept) {i : Intercept} {a : Addr} (h : a ≠ i.addr) :
    atAddr (live.erase i) a = atAddr live a := by
  rw [atAddr, atAddr, ← List.erase_filter, List.erase_of_not_mem]
  simp [h.symm]

/-- `install_intercept` when its system calls succeed. -/
theorem installIntercept_spec (vg : Bool) {addr : Addr} (h0 : addr ≠ 0) (st : IntState)
    (s : InterceptState) :
    (s.installIntercept vg {} addr st).2.1.orig = s.text addr ∧
    (s.installIntercept vg {} addr st).2.2.installed = s.installed ∧
    (s.installIntercept vg {} addr st).2.2.text = Function.update s.text addr
      (trapByte (s.installIntercept vg {} addr st).2.2.usingInt3) ∧
    (s.installIntercept vg {} addr st).2.2.installedSigaction = true ∧
    (s.installedSigaction = true →
      (s.installIntercept vg {} addr st).2.2.usingInt3 = s.usingInt3) := by
  rw [InterceptState.installIntercept, if_neg h0]
  by_cases hs : s.installedSigaction = true
  · simp [hs, InterceptState.textWrite]
  · simp [hs, InterceptState.textWrite]

/-- `uninstall_intercept` over a trap, when its system calls succeed. -/
theorem uninstallIntercept_spec {addr : Addr} (h0 : addr ≠ 0) (st : IntState)
    {s : InterceptState} (ht : s.text addr = trapByte s.usingInt3) :
    (s.uninstallIntercept {} addr st).2 =
      { s with text := Function.update s.text addr st.orig } := by
  rw [InterceptState.uninstallIntercept, if_neg h0, if_neg (not_not.mpr ht)]
  rfl

theorem trapByte_isTrap (b : Bool) : isTrap (trapByte b) = true := by cases b <;> decide

/-- `uninstall_intercept` where there is no trap. -/
theorem uninstallIntercept_of_not_trap {addr : Addr} (st : IntState) {s : InterceptState}
    (ht : isTrap (s.text addr) = false) : (s.uninstallIntercept {} addr st).2 = s := by
  have hne : s.text addr ≠ trapByte s.usingInt3 := by
    intro he
    rw [he, trapByte_isTrap] at ht
    cases ht
  rw [InterceptState.uninstallIntercept]
  split
  · rfl
  · rfl

/-- Setting the state of one address: what holds of the others is kept. -/
theorem Patched.setAddrstate (h : Patched orig live s) {live' : List Intercept}
    {s' : InterceptState} {addr : Addr} {as : Option AddrState}
    (hlive : ∀ a, a ≠ addr → atAddr live' a = atAddr live a)
    (hinstalled : s'.installed = s.installed)
    (hothers : ∀ a, a ≠ addr →
      s'.text a = if atAddr live a = [] then orig a else trapByte s'.usingInt3)
    (hentries : as.map (·.intercepts) =
      if atAddr live' addr = [] then none else some (atAddr live' addr))
    (htext : s'.text addr = if atAddr live' addr = [] then orig addr else trapByte s'.usingInt3)
    (hsaved : ∀ st, as = some st → st.state.orig = orig addr)
    (hsigaction : s'.installedSigaction = false → live' = []) :
    Patched orig live' (s'.setAddrstate addr as) where
  entries a := by
    by_cases he : a = addr
    · subst he
      rw [installed_setAddrstate_self, hentries]
    · rw [hlive a he, ← h.entries a, installed_setAddrstate_of_ne s' he, hinstalled]
  text a := by
    by_cases he : a = addr
    · subst he
      exact htext
    · rw [hlive a he]
      exact hothers a he
  saved a st hst := by
    by_cases he : a = addr
    · subst he
      rw [installed_setAddrstate_self] at hst
      exact hsaved st hst
    · rw [installed_setAddrstate_of_ne s' he, hinstalled] at hst
      exact h.saved a st hst
  sigaction := hsigaction

/-- Installing an intercept. -/
theorem Patched.install (h : Patched orig live s) {i : Intercept} (hi : Patchable orig i.addr) :
    Patched orig (live ++ [i]) (s.install vg {} i).2 := by
  have hcs := h.getAddrstate_intercepts i.addr
  have hlive : ∀ a, a ≠ i.addr → atAddr (live ++ [i]) a = atAddr live a :=
    fun a he => atAddr_append_of_ne live he
  have hself : atAddr (live ++ [i]) i.addr ≠ [] := by
    rw [atAddr_append_self]
    exact List.concat_ne_nil i _
  rw [InterceptState.install]
  simp only [hcs]
  by_cases ha : atAddr live i.addr = []
  · -- the first intercept at its address
    obtain ⟨k₁, k₂, k₃, k₄, k₅⟩ := installIntercept_spec vg hi.1 (s.getAddrstate i.addr).state s
    rw [if_pos (by rw [ha]; rfl)]
    generalize s.installIntercept vg {} i.addr (s.getAddrstate i.addr).state = p at k₁ k₂ k₃ k₄ k₅
    have htext : s.text i.addr = orig i.addr := by rw [h.text, if_pos ha]
    refine h.setAddrstate hlive k₂ (fun a he => ?_) ?_ ?_ ?_ ?_
    · rw [k₃, Function.update_of_ne he, h.text]
      by_cases hl : atAddr live a = []
      · rw [if_pos hl, if_pos hl]
      · -- with something registered the signal handler is in place, and the trap byte stays
        have hsig : s.installedSigaction = true := by
          by_contra hf
          rw [h.sigaction (by simpa using hf)] at hl
          exact hl rfl
        rw [if_neg hl, if_neg hl, ← k₅ hsig]
    · rw [if_neg hself, atAddr_append_self]
      rfl
    · rw [if_neg hself, k₃, Function.update_self]
    · rintro _ ⟨⟩
      exact k₁.trans htext
    · intro hs
      rw [k₄] at hs
      cases hs
  · rw [if_neg (by simpa using ha)]
    obtain ⟨as₀, has₀, hi₀⟩ := h.installed_eq_some ha
    refine h.setAddrstate hlive rfl (fun a _ => h.text a) ?_ ?_ ?_ ?_
    · rw [if_neg hself, atAddr_append_self]
      rfl
    · rw [if_neg hself, h.text, if_neg ha]
    · rintro _ ⟨⟩
      rw [InterceptState.getAddrstate, has₀]
      exact h.saved _ as₀ has₀
    · intro hs
      rw [h.sigaction hs] at ha
      exact absurd rfl ha

/-- Uninstalling an intercept, registered or not. -/
theorem Patched.uninstall (h : Patched orig live s) {i : Intercept} (hi : Patchable orig i.addr) :
    Patched orig (live.erase i) (s.uninstall {} i).2 := by
  have hcs := h.getAddrstate_intercepts i.addr
  have hlive : ∀ a, a ≠ i.addr → atAddr (live.erase i) a = atAddr live a :=
    fun a he => atAddr_erase_of_ne live he
  have hself := atAddr_erase_self live i
  rw [InterceptState.uninstall]
  simp only [hcs]
  by_cases he : (atAddr live i.addr).erase i = []
  · -- the last intercept at its address, or none at all
    rw [if_pos (by rw [he]; rfl)]
    have hp : (s.uninstallIntercept {} i.addr (s.getAddrstate i.addr).state).2 =
        { s with text := Function.update s.text i.addr (orig i.addr) } := by
      by_cases ha : atAddr live i.addr = []
      · have htext : s.text i.addr = orig i.addr := by rw [h.text, if_pos ha]
        rw [uninstallIntercept_of_not_trap _ (htext ▸ hi.2), ← htext, Function.update_eq_self]
      · obtain ⟨as, has, -⟩ := h.installed_eq_some ha
        have htrap : s.text i.addr = trapByte s.usingInt3 := by rw [h.text, if_neg ha]
        rw [uninstallIntercept_spec hi.1 _ htrap, InterceptState.getAddrstate, has]
        simp only [Option.getD_some, h.saved _ _ has]
    rw [hp]
    refine h.setAddrstate hlive rfl (fun a ha => ?_) ?_ ?_ ?_ ?_
    · dsimp only
      rw [Function.update_of_ne ha, h.text]
    · rw [hself, if_pos he]
      rfl
    · dsimp only
      rw [Function.update_self, hself, if_pos he]
    · intro st hst
      cases hst
    · intro hs
      have hl : live = [] := h.sigaction hs
      rw [hl]
      rfl
  · rw [if_neg (by simpa using he)]
    have ha : atAddr live i.addr ≠ [] := by
      intro ha
      rw [ha] at he
      exact he rfl
    obtain ⟨as₀, has₀, hi₀⟩ := h.installed_eq_some ha
    refine h.setAddrstate hlive rfl (fun a _ => h.text a) ?_ ?_ ?_ ?_
    · rw [hself, if_neg he]
      rfl
    · rw [hself, if_neg he, h.text, if_neg ha]
    · rintro _ ⟨⟩
      rw [InterceptState.getAddrstate, has₀]
      exact h.saved _ as₀ has₀
    · intro hs
      rw [h.sigaction hs] at ha
      exact absurd rfl ha

end Calls

/-! ### Sequences of calls -/

/-- A process that has made some calls, all of whose system calls succeeded. -/
def InterceptState.run (vg : Bool) (s : InterceptState) (calls : List InterceptCall) :
    InterceptState :=
  calls.foldl (InterceptCall.apply vg {}) s

theorem patched_fresh (orig : Addr → UInt8) : Patched orig [] (.fresh orig) :=
  ⟨fun _ => rfl, fun _ => rfl, fun _ _ h => (nomatch h), fun _ => rfl⟩

/-- The registry and the text follow the registered intercepts through any sequence of calls. -/
theorem patched_run {orig : Addr → UInt8} (vg : Bool) {calls : List InterceptCall}
    (hc : ∀ c ∈ calls, Patchable orig c.intercept.addr) :
    Patched orig (registered calls) ((InterceptState.fresh orig).run vg calls) := by
  have h : ∀ (calls : List InterceptCall), (∀ c ∈ calls, Patchable orig c.intercept.addr) →
      ∀ live s, Patched orig live s →
        Patched orig (calls.foldl InterceptCall.register live) (s.run vg calls) := by
    intro calls
    induction calls with
    | nil => intro _ live s hs; exact hs
    | cons c calls ih =>
        intro hc live s hs
        refine ih (fun d hd => hc d (List.mem_cons_of_mem _ hd)) _ _ ?_
        have hp := hc c List.mem_cons_self
        cases c with
        | install i => exact hs.install hp
        | uninstall i => exact hs.uninstall hp
  exact h calls hc [] _ (patched_fresh orig)

/-- `dispatch_before` visits the registered intercepts. -/
theorem Patched.dispatchBefore {γ : Type} {orig : Addr → UInt8} {live : List Intercept}
    {s : InterceptState} (h : Patched orig live s) (before : Intercept → γ → γ) (a : Addr)
    (call : γ) :
    s.dispatchBefore before a call = (atAddr live a).foldl (fun call i => before i call) call := by
  rw [InterceptState.dispatchBefore]
  by_cases ha : atAddr live a = []
  · rw [h.installed_eq_none ha, ha]
    rfl
  · obtain ⟨as, has, hi⟩ := h.installed_eq_some ha
    rw [has, ← hi]
    rfl

theorem Patched.isSome_iff {orig : Addr → UInt8} {live : List Intercept} {s : InterceptState}
    (h : Patched orig live s) (a : Addr) :
    (s.installed a).isSome = true ↔ ∃ i ∈ live, i.addr = a := by
  have hl : atAddr live a ≠ [] ↔ ∃ i ∈ live, i.addr = a := by
    simp [atAddr, List.filter_eq_nil_iff]
  rw [← hl]
  by_cases ha : atAddr live a = []
  · simp [h.installed_eq_none ha, ha]
  · obtain ⟨as, has, -⟩ := h.installed_eq_some ha
    simp [has, ha]

end NovaProva
