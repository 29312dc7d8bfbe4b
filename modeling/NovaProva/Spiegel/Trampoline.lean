import Mathlib.Data.List.Forall2
import NovaProva.Lib.Calls
import NovaProva.Spiegel.Redirect

/-!
# Spiegel — Trampoline

`handle_signal` and `intercept_tramp`, while the program under test runs: calls inside calls, jumps
out of them, and `np_mock` and `np_unmock` anywhere in between.

The tramp emulates a `push %rbp` that the trap has replaced, or else puts the byte back for the
call and the trap again when it is over.  It finds out which of the two it has to do from
`tramp_intstate`, a static that every trap sets; `after:` reads the one of the last trap.

* `tramp`: the machine, from the source.
* `mockTable`: what mocks are for.  A call goes to the function that was named last.
* `MocksAs`: the relation between the two, `tramp_simulates`.
* `mocked_tests_run_as_meant`: whole tests, from `pre_run` to `post_run`.
-/

namespace NovaProva

/-! ### Calls -/

/-- A call as it is made: the arguments by index, `parent_size` in words, which is how far the
frame pointer lies above the return address, and what the frame of the tramp has in it. -/
structure CallSite where
  arg : Nat → Nat
  words : Nat
  junk : Nat → Nat

/-- How many words of the stack `intercept_tramp` has room for. -/
def copiedWords : Nat := 26

/-- The arguments in the new stack frame: six in registers, and as many of the others as were
copied. -/
def CallSite.copied (site : CallSite) (i : Nat) : Nat :=
  if i < 6 + min site.words copiedWords then site.arg i else site.junk i

/-- `call_t`, with the arguments. -/
structure TrampCall extends Call where
  arg : Nat → Nat

/-- `before` and `after` of an `intercept_t`. -/
structure Methods where
  before : TrampCall → TrampCall
  after : TrampCall → TrampCall

/-- Those of a `redirect_t`. -/
def Methods.redirect (to_ : Addr) : Methods where
  before call := { call with toCall := call.toCall.redirectTo to_ }
  after call := call

/-- `tramp_intstate`, a pointer into the registry. -/
inductive IntstatePtr where
  | null
  /-- the `state_` of the entry for an address -/
  | entry (a : Addr)
  /-- that entry has been erased -/
  | dangling
  deriving DecidableEq

/-- A process that runs tests: the objects that were made by `new redirect_t`, `tramp_intstate`,
and which function ran for each call so far, oldest first. -/
structure TrampState where
  mocks : MockState
  objects : Nat → Methods
  nextObject : Nat
  intstate : IntstatePtr := .null
  ran : List (Addr × Addr) := []

/-- What a program asks of the library: `__np_mock` and `__np_unmock`. -/
inductive MockOp where
  | mock (from_ to_ : Addr)
  | unmock (from_ : Addr)
  deriving DecidableEq

/-- What the tramp keeps of a call while a function runs for it. -/
inductive TrampFrame where
  /-- there was no trap -/
  | untrapped
  | trapped (addr : Addr) (call : TrampCall)

namespace TrampState

/-- The byte at an address of the text. -/
def text (s : TrampState) (a : Addr) : UInt8 := s.mocks.icept.text a

/-- `text_write`, which succeeds. -/
def textWrite (a : Addr) (b : UInt8) (s : TrampState) : TrampState :=
  { s with mocks := { s.mocks with icept := (s.mocks.icept.textWrite {} a b).2 } }

/-- The trap over the first byte of `a`. -/
def insertTrap (a : Addr) (s : TrampState) : TrampState :=
  s.textWrite a (trapByte s.mocks.icept.usingInt3)

/-- `__np_mock`. -/
def mock (vg : Bool) (instr : Addr → Addr) (from_ to_ : Addr) (s : TrampState) : TrampState :=
  { s with
    mocks := s.mocks.call vg instr (.mock s.nextObject from_)
    objects := Function.update s.objects s.nextObject (.redirect to_)
    nextObject := s.nextObject + 1 }

/-- A pointer after some entries were erased. -/
def settle (icept : InterceptState) : IntstatePtr → IntstatePtr
  | .entry a => if (icept.installed a).isSome then .entry a else .dangling
  | p        => p

/-- `__np_unmock`. -/
def unmock (vg : Bool) (instr : Addr → Addr) (from_ : Addr) (s : TrampState) : TrampState :=
  let mocks := s.mocks.call vg instr (.unmock from_)
  { s with mocks := mocks, intstate := settle mocks.icept s.intstate }

/-- `tramp_intstate->type_`; `none` where the pointer does not point at anything. -/
def intstateType (s : TrampState) : Option IntType :=
  match s.intstate with
  | .entry a => (s.mocks.icept.installed a).map fun as => as.state.type
  | _        => none

/-- `dispatch_before`, for the objects that there are. -/
def dispatchBefore (s : TrampState) (a : Addr) (call : TrampCall) : TrampCall :=
  s.mocks.icept.dispatchBefore (fun i call => (s.objects i.this).before call) a call

/-- `dispatch_after` goes over the same intercepts. -/
def dispatchAfter (s : TrampState) (a : Addr) (call : TrampCall) : TrampCall :=
  s.mocks.icept.dispatchBefore (fun i call => (s.objects i.this).after call) a call

/-- The first `switch` of `intercept_tramp`: the byte is put back unless it is emulated. -/
def prepare (s : TrampState) (a : Addr) (as : AddrState) : TrampState :=
  if as.state.type = .other then s.textWrite a as.state.orig else s

/-- The `switch` behind a `before` that asked for something else. -/
def undo (s : TrampState) (a : Addr) (as : AddrState) : TrampState :=
  if as.state.type = .other then s.insertTrap a else s

end TrampState

open TrampState in
/-- A call reaches `f`.  Where there is no trap `f` runs; a trap of an unknown address kills the
process, and one that was found over another trap is not followed further here.  Nor is a function
that runs in the place of `f` and has a trap itself. -/
def enterCall (f : Addr) (site : CallSite) (s : TrampState) :
    Option (Entered Addr CallSite Nat TrampFrame × TrampState) :=
  if s.text f ≠ trapByte s.mocks.icept.usingInt3 then
    some (.runs f site .untrapped, { s with ran := s.ran ++ [(f, f)] })
  else
    match s.mocks.icept.installed f with
    | none    => none
    | some as =>
        if as.state.type = .unknown then none
        else
          let s := { s.prepare f as with intstate := .entry f }
          let call := s.dispatchBefore f { arg := site.copied }
          if call.skip then some (.returns call.retval, s.undo f as)
          else if call.redirect ≠ 0 then
            let s := s.undo f as
            if s.text call.redirect = trapByte s.mocks.icept.usingInt3 then none
            else some (.runs call.redirect { site with arg := call.arg } (.trapped f call),
              { s with ran := s.ran ++ [(f, call.redirect)] })
          else some (.runs f { site with arg := call.arg } (.trapped f call),
            { s with ran := s.ran ++ [(f, f)] })

open TrampState in
/-- The function that ran for a call returns `v`: to the caller, or to `after:`. -/
def leaveCall : TrampFrame → Nat → TrampState → Option (Nat × TrampState)
  | .untrapped, v, s => some (v, s)
  | .trapped f call, v, s =>
      match s.intstateType with
      | none      => none
      | some type =>
          let s := if type = .other then s.insertTrap f else s
          let call := s.dispatchAfter f { call with retval := v }
          some (call.retval, s)

/-- **The process.** -/
def tramp (vg : Bool) (instr : Addr → Addr) :
    CallMachine MockOp Addr CallSite Nat TrampFrame TrampState where
  act _
    | .mock from_ to_, s => some (s.mock vg instr from_ to_)
    | .unmock from_,   s => some (s.unmock vg instr from_)
  enter := enterCall
  leave := leaveCall

/-! ### What mocks are for -/

/-- The mocks there are, in the order of their installation: those of the test's nodes, and those
the test itself has made.  Each is an address and the function to call instead. -/
structure MockTable where
  fixed : List (Addr × Addr)
  dynamic : List (Addr × Addr) := []
  ran : List (Addr × Addr) := []

/-- The mocks of `f`. -/
def MockTable.mocksAt (t : MockTable) (f : Addr) : List (Addr × Addr) :=
  (t.fixed ++ t.dynamic).filter fun m => m.1 = f

/-- The function to call instead of `f`. -/
def MockTable.target (t : MockTable) (f : Addr) : Option Addr :=
  (t.mocksAt f).getLast?.map Prod.snd

instance (orig : Addr → UInt8) (a : Addr) : Decidable (Patchable orig a) :=
  inferInstanceAs (Decidable (_ ∧ _))

/-- **The table of mocks** as a machine; the frames are the functions that are mocked.  It stops at
what the library does not promise anything for: a mock of what cannot be patched, a mock by a
mocked function, a function that begins with a trap of its own, and `np_unmock` while a mock
runs. -/
def mockTable (orig : Addr → UInt8) (instr : Addr → Addr) :
    CallMachine MockOp Addr CallSite Nat (Option Addr) MockTable where
  act ls
    | .mock from_ to_, t =>
        if Patchable orig (instr from_) ∧ to_ ≠ 0 then
          some { t with dynamic := t.dynamic ++ [(instr from_, to_)] }
        else none
    | .unmock from_, t =>
        if ls.all Option.isNone then
          some { t with dynamic := t.dynamic.eraseP fun m => m.1 = from_ }
        else none
  enter f site t :=
    match t.target f with
    | none   =>
        if isTrap (orig f) then none
        else some (.runs f site none, { t with ran := t.ran ++ [(f, f)] })
    | some g =>
        if (t.target g).isSome ∨ isTrap (orig g) then none
        else some (.runs g { site with arg := site.copied } (some f),
          { t with ran := t.ran ++ [(f, g)] })
  leave _ v t := some (v, t)

/-! ### The types of the intercepts -/

/-- The entries know whether the trap has replaced a `push %rbp`. -/
def InterceptState.Typed (orig : Addr → UInt8) (s : InterceptState) : Prop :=
  ∀ a as, s.installed a = some as →
    as.state.type = if orig a = insnPushRbp then .pushbp else .other

section Typed
variable {orig : Addr → UInt8} {live : List Intercept} {s : InterceptState}

theorem installIntercept_type (vg : Bool) {addr : Addr} (h0 : addr ≠ 0) (st : IntState)
    (hb : isTrap (s.text addr) = false) :
    (s.installIntercept vg {} addr st).2.1.type =
      if s.text addr = insnPushRbp then .pushbp else .other := by
  rw [InterceptState.installIntercept, if_neg h0]
  by_cases hpush : s.text addr = insnPushRbp
  · by_cases hsig : s.installedSigaction = true
    · simp [hpush, hsig]
    · simp [hpush, hsig]
  · by_cases hsig : s.installedSigaction = true
    · simp [hpush, hb, hsig]
    · simp [hpush, hb, hsig]

theorem InterceptState.Typed.install (h : s.Typed orig) (hp : Patched orig live s) (vg : Bool)
    {i : Intercept} (hi : Patchable orig i.addr) : (s.install vg {} i).2.Typed orig := by
  intro a as has
  by_cases ha : a = i.addr
  · subst ha
    by_cases hlive : atAddr live i.addr = []
    · -- the first one at its address looks at the byte
      have htext : s.text i.addr = orig i.addr := by rw [hp.text, if_pos hlive]
      have htype := installIntercept_type vg hi.1 (s.getAddrstate i.addr).state
        (by rw [htext]; exact hi.2)
      rw [InterceptState.install] at has
      simp only [hp.getAddrstate_intercepts, hlive, List.nil_append, List.length_singleton,
        if_true] at has
      rw [installed_setAddrstate_self] at has
      cases has
      rw [← htext]
      exact htype
    · obtain ⟨as₀, has₀, hi₀⟩ := hp.installed_eq_some hlive
      rw [install_of_registered has₀ (by rw [hi₀]; exact hlive), installed_setAddrstate_self] at has
      cases has
      exact h i.addr as₀ has₀
  · rw [install_other s hi.1 ha] at has
    exact h a as has

theorem InterceptState.Typed.uninstall (h : s.Typed orig) (hp : Patched orig live s)
    (i : Intercept) : (s.uninstall {} i).2.Typed orig := by
  intro a as has
  by_cases ha : a = i.addr
  · subst ha
    rw [InterceptState.uninstall] at has
    simp only [hp.getAddrstate_intercepts] at has
    split at has
    · rw [installed_setAddrstate_self] at has
      cases has
    case isFalse hleft =>
      rw [installed_setAddrstate_self] at has
      cases has
      have hlive : atAddr live i.addr ≠ [] := by
        intro hnil
        exact hleft (by rw [hnil]; rfl)
      obtain ⟨as₀, has₀, -⟩ := hp.installed_eq_some hlive
      rw [InterceptState.getAddrstate, has₀]
      exact h i.addr as₀ has₀
  · rw [uninstall_other s i ha] at has
    exact h a as has

/-- The intercepts that `pre_run` installs. -/
theorem typed_installAll (vg : Bool) {is : List Intercept} (h : s.Typed orig)
    (hp : Patched orig live s) (hi : ∀ i ∈ is, Patchable orig i.addr) :
    (is.foldl (fun s i => (s.install vg {} i).2) s).Typed orig := by
  induction is generalizing live s with
  | nil => exact h
  | cons i is ih =>
      have hpatch := hi i List.mem_cons_self
      exact ih (h.install hp vg hpatch) (hp.install hpatch)
        fun j hj => hi j (List.mem_cons_of_mem i hj)

end Typed

/-! ### The process and the table -/

section
variable {α β : Type} {R : α → β → Prop} {as : List α} {bs : List β}

theorem getLast?_of_forall₂ (h : List.Forall₂ R as bs) {b : β} (hb : bs.getLast? = some b) :
    ∃ a, as.getLast? = some a ∧ R a b := by
  have hr := List.rel_reverse h
  rw [List.getLast?_eq_head?_reverse] at hb ⊢
  generalize as.reverse = as' at hr ⊢
  generalize bs.reverse = bs' at hr hb
  cases hr with
  | nil => cases hb
  | cons hab _ =>
      cases hb
      exact ⟨_, rfl, hab⟩

/-- Taking the first element off two lists by conditions that agree. -/
theorem eraseP_of_forall₂ (h : List.Forall₂ R as bs) {p : α → Bool} {q : β → Bool}
    (hpq : ∀ a b, R a b → p a = q b) : List.Forall₂ R (as.eraseP p) (bs.eraseP q) := by
  induction h with
  | nil => exact .nil
  | @cons a b as bs hab hrest ih =>
      rw [List.eraseP_cons, List.eraseP_cons, hpq a b hab]
      cases q b with
      | true => exact hrest
      | false => exact .cons hab ih

end

theorem ne_trapByte {b : UInt8} (hb : isTrap b = false) (usingInt3 : Bool) :
    b ≠ trapByte usingInt3 := by
  rintro rfl
  rw [trapByte_isTrap] at hb
  cases hb

namespace TrampState
variable {s : TrampState} {a : Addr}

theorem dispatchBefore_prepare (s : TrampState) (a : Addr) (as : AddrState) (p : IntstatePtr)
    (call : TrampCall) :
    TrampState.dispatchBefore { s.prepare a as with intstate := p } a call =
      s.dispatchBefore a call := by
  rw [prepare]
  split
  · rfl
  · rfl

/-- A trap over a trap changes nothing. -/
theorem insertTrap_of_trap (ht : s.text a = trapByte s.mocks.icept.usingInt3) :
    s.insertTrap a = s := by
  have htext : Function.update s.mocks.icept.text a (trapByte s.mocks.icept.usingInt3) =
      s.mocks.icept.text := by
    rw [← ht]
    exact Function.update_eq_self ..
  simp [insertTrap, textWrite, InterceptState.textWrite, htext]

/-- What is put back is trapped again. -/
theorem undo_prepare (ht : s.text a = trapByte s.mocks.icept.usingInt3) {as : AddrState}
    {p : IntstatePtr} :
    TrampState.undo { s.prepare a as with intstate := p } a as = { s with intstate := p } := by
  have htext : Function.update s.mocks.icept.text a (trapByte s.mocks.icept.usingInt3) =
      s.mocks.icept.text := by
    rw [← ht]
    exact Function.update_eq_self ..
  rw [undo, prepare]
  split
  · simp [insertTrap, textWrite, InterceptState.textWrite, htext]
  · rfl

end TrampState

/-- The object mocks the address, by the function. -/
structure IsMock (objects : Nat → Methods) (i : Intercept) (m : Addr × Addr) : Prop where
  addr : i.addr = m.1
  object : objects i.this = .redirect m.2
  to_ne : m.2 ≠ 0

theorem isMock_congr {objects objects' : Nat → Methods} {is : List Intercept}
    {ms : List (Addr × Addr)} (h : List.Forall₂ (IsMock objects) is ms)
    (he : ∀ i ∈ is, objects' i.this = objects i.this) : List.Forall₂ (IsMock objects') is ms := by
  induction h with
  | nil => exact .nil
  | @cons i m is ms him _ ih =>
      refine .cons ⟨him.addr, ?_, him.to_ne⟩ (ih fun j hj => he j (List.mem_cons_of_mem i hj))
      rw [he i List.mem_cons_self]
      exact him.object

section
variable {objects : Nat → Methods} {is : List Intercept} {ms : List (Addr × Addr)}

/-- A redirection replaces those before it. -/
theorem foldl_before (h : List.Forall₂ (IsMock objects) is ms) {m : Addr × Addr}
    (hm : ms.getLast? = some m) (call : TrampCall) :
    is.foldl (fun call i => (objects i.this).before call) call =
      (Methods.redirect m.2).before call := by
  induction h generalizing call with
  | nil => cases hm
  | @cons i m' is ms him hrest ih =>
      rw [List.foldl_cons, him.object]
      cases hrest with
      | nil =>
          cases hm
          rfl
      | cons hjm hrest =>
          rw [List.getLast?_cons_cons] at hm
          rw [ih hm]
          rfl

theorem foldl_after (h : List.Forall₂ (IsMock objects) is ms) (call : TrampCall) :
    is.foldl (fun call i => (objects i.this).after call) call = call := by
  induction h with
  | nil => rfl
  | @cons i m is ms him _ ih =>
      rw [List.foldl_cons, him.object]
      exact ih

end

/-- **The relation.**  The intercepts `is` of the nodes and the dynamic ones are the mocks of the
table, and while a mock runs its own entry and the one `tramp_intstate` points at stay in the
registry. -/
structure MocksAs (orig : Addr → UInt8) (s₀ : InterceptState) (is : List Intercept)
    (ls : List (Option Addr)) (s : TrampState) (t : MockTable) : Prop where
  mocking : Mocking orig [] s₀ is s.mocks
  typed : s.mocks.icept.Typed orig
  fixed : List.Forall₂ (IsMock s.objects) is t.fixed
  dynamic : List.Forall₂ (IsMock s.objects) s.mocks.dynamic t.dynamic
  fresh : ∀ i ∈ is ++ s.mocks.dynamic, i.this < s.nextObject
  stay : ∀ f, some f ∈ ls → (s.mocks.icept.installed f).isSome
  points : ∀ f, some f ∈ ls →
    ∃ a, s.intstate = .entry a ∧ (s.mocks.icept.installed a).isSome
  ran : s.ran = t.ran

/-- A frame of the tramp is one of the function that is mocked, which is left as it was found. -/
def FrameOf (k : TrampFrame) (l : Option Addr) : Prop :=
  match k, l with
  | .untrapped, none        => True
  | .trapped f _, some f'   => f = f'
  | _, _                    => False

section
variable {orig : Addr → UInt8} {s₀ : InterceptState} {is : List Intercept} {vg : Bool}
  {instr : Addr → Addr} {ls : List (Option Addr)} {s : TrampState} {t : MockTable}

namespace MocksAs

/-- Everything that is registered. -/
theorem patched (h : MocksAs orig s₀ is ls s t) :
    Patched orig (is ++ s.mocks.dynamic) s.mocks.icept := h.mocking.grown.patched

theorem mocks (h : MocksAs orig s₀ is ls s t) :
    List.Forall₂ (IsMock s.objects) (is ++ s.mocks.dynamic) (t.fixed ++ t.dynamic) :=
  List.rel_append h.fixed h.dynamic

theorem mocksAt (h : MocksAs orig s₀ is ls s t) (f : Addr) :
    List.Forall₂ (IsMock s.objects) (atAddr (is ++ s.mocks.dynamic) f) (t.mocksAt f) :=
  List.rel_filter (fun {i m} hm => by dsimp only; rw [hm.addr]) h.mocks

theorem text_of_not_mocked (h : MocksAs orig s₀ is ls s t) {f : Addr} (hf : t.target f = none) :
    s.text f = orig f := by
  have hat := h.mocksAt f
  rw [MockTable.target, Option.map_eq_none_iff, List.getLast?_eq_none_iff] at hf
  rw [hf] at hat
  rw [TrampState.text, h.patched.text, if_pos (List.forall₂_nil_right_iff.mp hat)]

/-- The intercept that was installed last at an address is the one the table names. -/
theorem atAddr_ne_nil (h : MocksAs orig s₀ is ls s t) {f g : Addr} (hf : t.target f = some g) :
    atAddr (is ++ s.mocks.dynamic) f ≠ [] := by
  obtain ⟨m, hlast, -⟩ := Option.map_eq_some_iff.mp hf
  obtain ⟨i, hi, -⟩ := getLast?_of_forall₂ (h.mocksAt f) hlast
  exact List.ne_nil_of_mem (List.mem_of_getLast? hi)

theorem to_ne_zero (h : MocksAs orig s₀ is ls s t) {f g : Addr} (hf : t.target f = some g) :
    g ≠ 0 := by
  obtain ⟨m, hlast, rfl⟩ := Option.map_eq_some_iff.mp hf
  obtain ⟨i, -, him⟩ := getLast?_of_forall₂ (h.mocksAt f) hlast
  exact him.to_ne

theorem text_of_registered (h : MocksAs orig s₀ is ls s t) {f : Addr}
    (hf : atAddr (is ++ s.mocks.dynamic) f ≠ []) :
    s.text f = trapByte s.mocks.icept.usingInt3 := by
  rw [TrampState.text, h.patched.text, if_neg hf]

theorem registered_of_stay (h : MocksAs orig s₀ is ls s t) {f : Addr} (hf : some f ∈ ls) :
    atAddr (is ++ s.mocks.dynamic) f ≠ [] := by
  intro hnil
  have hstay := h.stay f hf
  rw [h.patched.installed_eq_none hnil] at hstay
  cases hstay

/-- What `before` makes of a call: the last mock replaces those before it. -/
theorem dispatchBefore (h : MocksAs orig s₀ is ls s t) {f g : Addr} (hf : t.target f = some g)
    (call : TrampCall) : s.dispatchBefore f call = (Methods.redirect g).before call := by
  obtain ⟨m, hlast, rfl⟩ := Option.map_eq_some_iff.mp hf
  rw [TrampState.dispatchBefore, h.patched.dispatchBefore]
  exact foldl_before (h.mocksAt f) hlast call

/-- `after` does nothing to it. -/
theorem dispatchAfter (h : MocksAs orig s₀ is ls s t) (f : Addr) (call : TrampCall) :
    s.dispatchAfter f call = call := by
  rw [TrampState.dispatchAfter, h.patched.dispatchBefore]
  exact foldl_after (h.mocksAt f) call

/-! #### The steps -/

theorem mock (h : MocksAs orig s₀ is ls s t) (h₀ : Patched orig [] s₀) {from_ to_ : Addr}
    (hp : Patchable orig (instr from_)) (hto : to_ ≠ 0) :
    MocksAs orig s₀ is ls (s.mock vg instr from_ to_)
      { t with dynamic := t.dynamic ++ [(instr from_, to_)] } := by
  have hold : ∀ i ∈ is ++ s.mocks.dynamic,
      Function.update s.objects s.nextObject (.redirect to_) i.this = s.objects i.this :=
    fun i hi => Function.update_of_ne (Nat.ne_of_lt (h.fresh i hi)) ..
  have hgrown : Patched orig ((is ++ s.mocks.dynamic) ++ [⟨s.nextObject, instr from_⟩])
      (s.mock vg instr from_ to_).mocks.icept := h.patched.install hp
  have hstay : ∀ a, (s.mocks.icept.installed a).isSome →
      ((s.mock vg instr from_ to_).mocks.icept.installed a).isSome := by
    intro a ha
    obtain ⟨i, hi, rfl⟩ := (h.patched.isSome_iff a).mp ha
    exact (hgrown.isSome_iff i.addr).mpr ⟨i, List.mem_append_left _ hi, rfl⟩
  have hok : MockOk orig instr ([] ++ is) (.mock s.nextObject from_) :=
    ⟨hp, fun i hi => Nat.ne_of_lt (h.fresh i (List.mem_append_left _ hi))⟩
  refine ⟨h.mocking.call h₀ hok, h.typed.install h.patched vg hp, ?_, ?_, fun i hi => ?_,
    fun f hf => hstay f (h.stay f hf), fun f hf => ?_, h.ran⟩
  · exact isMock_congr h.fixed fun i hi => hold i (List.mem_append_left _ hi)
  · refine List.rel_append (isMock_congr h.dynamic fun i hi =>
      hold i (List.mem_append_right _ hi)) (.cons ?_ .nil)
    exact ⟨rfl, Function.update_self .., hto⟩
  · have hi : i ∈ (is ++ s.mocks.dynamic) ++ [⟨s.nextObject, instr from_⟩] := by
      rw [List.append_assoc]
      exact hi
    rcases List.mem_append.mp hi with hi | hi
    · exact Nat.lt_succ_of_lt (h.fresh i hi)
    · rw [List.mem_singleton.mp hi]
      exact Nat.lt_succ_self _
  · obtain ⟨a, ha, hin⟩ := h.points f hf
    exact ⟨a, ha, hstay a hin⟩

theorem unmock (h : MocksAs orig s₀ is ls s t) (h₀ : Patched orig [] s₀) (from_ : Addr)
    (hls : ∀ f, some f ∉ ls) :
    MocksAs orig s₀ is ls (s.unmock vg instr from_)
      { t with dynamic := t.dynamic.eraseP fun m => m.1 = from_ } := by
  have hdyn : (s.unmock vg instr from_).mocks.dynamic =
      s.mocks.dynamic.eraseP fun m => m.addr = from_ := by
    show (s.mocks.call vg instr (.unmock from_)).dynamic = _
    rw [MockState.call]
    split
    next hnone =>
      exact (List.eraseP_of_forall_not fun m hm => List.find?_eq_none.mp hnone m hm).symm
    · rfl
  have htyped : (s.unmock vg instr from_).mocks.icept.Typed orig := by
    show (s.mocks.call vg instr (.unmock from_)).icept.Typed orig
    rw [MockState.call]
    split
    · exact h.typed
    · exact h.typed.uninstall h.patched _
  have hok : MockOk orig instr ([] ++ is) (.unmock from_) := trivial
  have hmocking : Mocking orig [] s₀ is (s.mocks.call vg instr (.unmock from_)) :=
    h.mocking.call h₀ hok
  refine ⟨hmocking, htyped, h.fixed, ?_, fun i hi => h.fresh i ?_,
    fun f hf => absurd hf (hls f), fun f hf => absurd hf (hls f), h.ran⟩
  · rw [hdyn]
    exact eraseP_of_forall₂ h.dynamic fun i m him => by rw [him.addr]
  · rw [hdyn] at hi
    rcases List.mem_append.mp hi with hi | hi
    · exact List.mem_append_left _ hi
    · exact List.mem_append_right _ (List.mem_of_mem_eraseP hi)

/-- A jump out of a frame. -/
theorem throws {l : Option Addr} (h : MocksAs orig s₀ is (l :: ls) s t) :
    MocksAs orig s₀ is ls s t :=
  { h with
    stay := fun f hf => h.stay f (List.mem_cons_of_mem l hf)
    points := fun f hf => h.points f (List.mem_cons_of_mem l hf) }

/-- A function that is not mocked runs. -/
theorem runs (h : MocksAs orig s₀ is ls s t) (f g : Addr) :
    MocksAs orig s₀ is (none :: ls) { s with ran := s.ran ++ [(f, g)] }
      { t with ran := t.ran ++ [(f, g)] } :=
  { h with
    stay := fun f' hf => h.stay f' ((List.mem_cons.mp hf).resolve_left (by simp))
    points := fun f' hf => h.points f' ((List.mem_cons.mp hf).resolve_left (by simp))
    ran := by rw [h.ran] }

/-- A mock of `f` runs, and `tramp_intstate` points at the entry of `f`. -/
theorem runsMock (h : MocksAs orig s₀ is ls s t) {f : Addr}
    (hf : (s.mocks.icept.installed f).isSome) (g : Addr) :
    MocksAs orig s₀ is (some f :: ls) { s with intstate := .entry f, ran := s.ran ++ [(f, g)] }
      { t with ran := t.ran ++ [(f, g)] } :=
  { h with
    stay := fun f' hf' => by
      rcases List.mem_cons.mp hf' with hf' | hf'
      · cases hf'
        exact hf
      · exact h.stay f' hf'
    points := fun _ _ => ⟨f, rfl, hf⟩
    ran := by rw [h.ran] }

/-- A call of what is not mocked. -/
theorem enterCall_of_not_mocked (h : MocksAs orig s₀ is ls s t) {f : Addr}
    (hf : t.target f = none) (hb : isTrap (orig f) = false) (site : CallSite) :
    enterCall f site s = some (.runs f site .untrapped, { s with ran := s.ran ++ [(f, f)] }) := by
  rw [enterCall, if_pos]
  rw [h.text_of_not_mocked hf]
  exact ne_trapByte hb _

/-- A call of a mocked function: the text is as it was when the mock starts. -/
theorem enterCall_of_mocked (h : MocksAs orig s₀ is ls s t) {f g : Addr}
    (hf : t.target f = some g) (hg : t.target g = none) (hb : isTrap (orig g) = false)
    (site : CallSite) :
    ∃ call, enterCall f site s = some (.runs g { site with arg := site.copied } (.trapped f call),
      { s with intstate := .entry f, ran := s.ran ++ [(f, g)] }) := by
  have hreg := h.atAddr_ne_nil hf
  have htrap := h.text_of_registered hreg
  obtain ⟨as, has, -⟩ := h.patched.installed_eq_some hreg
  have htype : as.state.type ≠ .unknown := by
    rw [h.typed f as has]
    split
    · exact IntType.noConfusion
    · exact IntType.noConfusion
  have hfree : s.text g ≠ trapByte s.mocks.icept.usingInt3 := by
    rw [h.text_of_not_mocked hg]
    exact ne_trapByte hb _
  refine ⟨(Methods.redirect g).before { arg := site.copied }, ?_⟩
  rw [enterCall, if_neg (not_not.mpr htrap), has]
  simp only [if_neg htype, TrampState.dispatchBefore_prepare, h.dispatchBefore hf,
    TrampState.undo_prepare htrap]
  have hto : ((Methods.redirect g).before { arg := site.copied }).redirect ≠ 0 := h.to_ne_zero hf
  rw [if_neg (by simp [Methods.redirect, Call.redirectTo]), if_pos hto]
  exact if_neg hfree

/-- A mock returns: the trap that is put over the function is there already. -/
theorem leaveCall_of_mocked {f : Addr} (h : MocksAs orig s₀ is (some f :: ls) s t)
    (call : TrampCall) (v : Nat) : leaveCall (.trapped f call) v s = some (v, s) := by
  obtain ⟨a, ha, hin⟩ := h.points f List.mem_cons_self
  obtain ⟨as, has⟩ := Option.isSome_iff_exists.mp hin
  have htype : s.intstateType = some as.state.type := by
    simp only [TrampState.intstateType, ha, has, Option.map_some]
  have htrap := h.text_of_registered (h.registered_of_stay List.mem_cons_self)
  simp only [leaveCall, htype, TrampState.insertTrap_of_trap htrap, ite_self, h.dispatchAfter]

end MocksAs

/-- **The process does what the table says.** -/
theorem tramp_simulates (h₀ : Patched orig [] s₀) :
    (tramp vg instr).Simulates (mockTable orig instr) FrameOf (MocksAs orig s₀ is) where
  act ks {ls op s t t'} h hact := by
    cases op with
    | mock from_ to_ =>
        obtain ⟨⟨hp, hto⟩, he⟩ := Option.ite_none_right_eq_some.mp hact
        cases he
        exact ⟨_, rfl, h.mock h₀ hp hto⟩
    | unmock from_ =>
        obtain ⟨hls, he⟩ := Option.ite_none_right_eq_some.mp hact
        cases he
        refine ⟨_, rfl, h.unmock h₀ from_ fun f hf => ?_⟩
        cases List.all_eq_true.mp hls _ hf
  returns {ls f a s t v t'} h hent := by
    rw [mockTable] at hent
    dsimp only at hent
    split at hent
    · split at hent
      · cases hent
      · cases hent
    · split at hent
      · cases hent
      · cases hent
  runs {ls f site s t g b l t'} h hent := by
    rw [mockTable] at hent
    dsimp only at hent
    split at hent
    next hf =>
      obtain ⟨hb, he⟩ := Option.ite_none_left_eq_some.mp hent
      cases he
      exact ⟨_, _, h.enterCall_of_not_mocked hf (by simpa using hb) site, trivial, h.runs f f⟩
    next hf =>
      obtain ⟨hg, he⟩ := Option.ite_none_left_eq_some.mp hent
      obtain ⟨hg, hb⟩ := not_or.mp hg
      cases he
      obtain ⟨call, hcall⟩ := h.enterCall_of_mocked hf (by simpa using hg) (by simpa using hb) site
      obtain ⟨as, has, -⟩ := h.patched.installed_eq_some (h.atAddr_ne_nil hf)
      exact ⟨_, _, hcall, rfl, h.runsMock (by rw [has]; rfl) g⟩
  leave {k l ls s t v v' t'} hkl h hleave := by
    cases hleave
    cases k with
    | untrapped => exact ⟨s, rfl, h.throws⟩
    | trapped f call =>
        cases l with
        | none => exact hkl.elim
        | some f' =>
            obtain rfl : f = f' := hkl
            exact ⟨s, h.leaveCall_of_mocked call v, h.throws⟩
  throws h := h.throws

end

/-! ### Whole tests -/

section
variable {orig : Addr → UInt8} {s₀ : InterceptState} {nodes : List (List Intercept)} {vg : Bool}
  {instr : Addr → Addr}

/-- A process behind `pre_run`. -/
def TrampState.preRun (vg : Bool) (nodes : List (List Intercept)) (objects : Nat → Methods)
    (nextObject : Nat) (s : InterceptState) : TrampState :=
  { mocks := MockState.preRun vg nodes ⟨s, []⟩, objects := objects, nextObject := nextObject }

theorem preRun_mocksAs (h₀ : Patched orig [] s₀) {objects : Nat → Methods} {nextObject : Nat}
    (hn : ∀ i ∈ nodes.flatten, Patchable orig i.addr ∧ i.this < nextObject)
    {ms : List (Addr × Addr)} (hm : List.Forall₂ (IsMock objects) nodes.flatten ms) :
    MocksAs orig s₀ nodes.flatten [] (.preRun vg nodes objects nextObject s₀) { fixed := ms } := by
  have htyped : s₀.Typed orig := by
    intro a as has
    rw [h₀.installed_eq_none rfl] at has
    cases has
  have hall := typed_installAll vg htyped h₀ fun i hi => (hn i hi).1
  rw [List.foldl_flatten] at hall
  refine ⟨?_, hall, hm, .nil, fun i hi => ?_, fun f hf => absurd hf List.not_mem_nil,
    fun f hf => absurd hf List.not_mem_nil, rfl⟩
  · have hmocking : Mocking orig [] s₀ nodes.flatten (.inTest vg id nodes [] s₀) :=
      inTest_mocking vg h₀ (fun i hi => ⟨(hn i hi).1, List.not_mem_nil⟩)
        fun c hc => absurd hc List.not_mem_nil
    exact hmocking
  · exact (hn i (by simpa [TrampState.preRun, MockState.preRun] using hi)).2

/-- What `post_run` leaves behind. -/
theorem Mocking.postRun {s : MockState} (h : Mocking orig [] s₀ nodes.flatten s)
    (h₀ : Patched orig [] s₀) (hn : ∀ i ∈ nodes.flatten, Patchable orig i.addr) :
    (s.postRun nodes).icept.installed = s₀.installed ∧
      (s.postRun nodes).icept.text = s₀.text := by
  refine Grown.eq ?_ h₀
  rw [MockState.postRun, ← List.foldl_flatten]
  have hdyn := h.grown.uninstallAll h₀ fun i hi => ⟨hn i hi, List.not_mem_nil⟩
  rw [← List.append_nil s.dynamic] at hdyn
  exact hdyn.uninstallAll h₀ fun m hm => ⟨(h.ok m hm).1, List.not_mem_nil⟩

/-- **A test with mocks runs as it is meant to.**  Behind `pre_run`, whatever the fixtures and the
test do (calls inside calls, mocks that call and mock other functions, jumps out of any of them),
as long as the table of mocks does not stop (no `np_unmock` while a mock runs, no mock that is
itself mocked), each call goes where the table says with the arguments that the tramp copies, and
they end as they would over it; `post_run` then leaves the registry and the text as they were. -/
theorem mocked_tests_run_as_meant (h₀ : Patched orig [] s₀) {objects : Nat → Methods}
    {nextObject : Nat} (hn : ∀ i ∈ nodes.flatten, Patchable orig i.addr ∧ i.this < nextObject)
    {ms : List (Addr × Addr)} (hm : List.Forall₂ (IsMock objects) nodes.flatten ms)
    (ds : List (Activity MockOp Addr CallSite Nat)) :
    let p := (tramp vg instr).runAll ds (.preRun vg nodes objects nextObject s₀)
    let q := (mockTable orig instr).runAll ds { fixed := ms }
    .stopped ∉ q.1 →
      p.1 = q.1 ∧ p.2.ran = q.2.ran ∧
        (p.2.mocks.postRun nodes).icept.installed = s₀.installed ∧
        (p.2.mocks.postRun nodes).icept.text = s₀.text := by
  intro p q hgo
  obtain ⟨he, hend⟩ := (tramp_simulates h₀).runAll ds (preRun_mocksAs h₀ hn hm) hgo
  exact ⟨he, hend.ran, hend.mocking.postRun h₀ fun i hi => (hn i hi).1⟩

end

/-- Three programs: a mock calls another mocked function, a mock leaves by a jump, and the last
takes it off and calls the function. -/
def nestedMocks : List (Activity MockOp Addr CallSite Nat) :=
  let site : CallSite := { arg := fun i => i + 7, words := 0, junk := fun _ => 0 }
  let leaf : Addr → CallSite → Activity MockOp Addr CallSite Nat :=
    fun g b => .returns (g + b.arg 0)
  let outer : Addr → CallSite → Activity MockOp Addr CallSite Nat := fun _ _ =>
    .call 32 site leaf fun v => .returns (v + 1)
  [.call 16 site outer .returns,
    .act (.mock 48 300) (.call 48 site (fun _ _ => .throws) .returns),
    .act (.unmock 48) (.call 48 site leaf .returns)]

/-- They run over mocks of functions of both types. -/
theorem mocked_tests_run_as_meant_nested :
    let orig : Addr → UInt8 := fun a => if a = 32 then 0x90 else insnPushRbp
    let nodes : List (List Intercept) := [[⟨1, 16⟩], [⟨2, 32⟩]]
    let p := (tramp false id).runAll nestedMocks
      (.preRun false nodes (fun o => .redirect (100 * o)) 3 (.fresh orig))
    p.1 = [.returned 208, .threw, .returned 55] ∧
      p.2.ran = [(16, 100), (32, 200), (48, 300), (48, 48)] ∧
      (p.2.mocks.postRun nodes).icept.installed = (InterceptState.fresh orig).installed ∧
      (p.2.mocks.postRun nodes).icept.text = (InterceptState.fresh orig).text := by
  intro orig nodes
  have hn : ∀ i ∈ nodes.flatten, Patchable orig i.addr ∧ i.this < 3 := by decide
  have hm : List.Forall₂ (IsMock fun o => .redirect (100 * o)) nodes.flatten
      [(16, 100), (32, 200)] :=
    .cons ⟨rfl, rfl, by decide⟩ (.cons ⟨rfl, rfl, by decide⟩ .nil)
  have hends : ((mockTable orig id).runAll nestedMocks { fixed := [(16, 100), (32, 200)] }).1 =
      [.returned 208, .threw, .returned 55] := by decide
  have hran : ((mockTable orig id).runAll nestedMocks { fixed := [(16, 100), (32, 200)] }).2.ran =
      [(16, 100), (32, 200), (48, 300), (48, 48)] := by decide
  have h := @mocked_tests_run_as_meant _ _ _ false id (patched_fresh orig) _ _ hn _ hm nestedMocks
    (by rw [hends]; decide)
  rw [hends, hran] at h
  dsimp only
  exact h

/-- A mock that takes itself off returns through a pointer to the entry that was erased. -/
theorem unmock_in_mock_dangles :
    let site : CallSite := { arg := fun _ => 0, words := 0, junk := fun _ => 0 }
    let d : Activity MockOp Addr CallSite Nat :=
      .act (.mock 16 100) (.call 16 site (fun _ _ => .act (.unmock 16) (.returns 3)) .returns)
    let s := TrampState.preRun false [] (fun _ => .redirect 0) 0 (.fresh fun _ => insnPushRbp)
    let p := (tramp false id).run [] d s
    p.1 = .stopped ∧ p.2.intstate = .dangling ∧ p.2.ran = [(16, 100)] := by
  decide

end NovaProva
