import NovaProva.Spiegel.Mock

/-!
# Spiegel — Redirect

Where a call of an intercepted function goes: the trap is taken by `handle_signal` and
`intercept_tramp`, which asks the intercepts of the address one after the other, and a mock, a
`redirect_t`, names the function to call instead.

`pre_run` installs the mocks of a node before those of its parent, `dispatch_before` asks them in
that order, and a later `redirect` replaces an earlier one.  So of several nodes that mock a
function the outermost has the last word (`preRun_calls_outermost`).
-/

namespace NovaProva

/-! ### A call of an intercepted function -/

/-- `call_t`, as far as the tramp looks at it. -/
structure Call where
  redirect : Addr := 0
  retval : Nat := 0
  skip : Bool := false

/-- `call_t::redirect`. -/
def Call.redirectTo (call : Call) (f : Addr) : Call := { call with redirect := f }

/-- `redirect_t::before`, for objects with the field `to_`. -/
def redirectBefore (to_ : Intercept → Addr) (i : Intercept) (call : Call) : Call :=
  call.redirectTo (to_ i)

/-- What becomes of a call. -/
inductive CallOutcome where
  /-- the function that was called runs -/
  | original
  /-- another function runs in its place -/
  | function (f : Addr)
  /-- it returns without running -/
  | returns (retval : Nat)
  /-- the process dies on the signal of the trap -/
  | killed
  deriving DecidableEq

namespace InterceptState

/-- `intercept_tramp`, up to where it leaves for the function to run. -/
def interceptTramp (before : Intercept → Call → Call) (s : InterceptState) (addr : Addr) :
    CallOutcome :=
  let call := s.dispatchBefore before addr {}
  if call.skip then .returns call.retval
  else if call.redirect ≠ 0 then .function call.redirect
  else .original

/-- A call that reaches `addr`: over a trap `handle_signal` goes on in the tramp, if it knows the
address. -/
def callFunction (before : Intercept → Call → Call) (s : InterceptState) (addr : Addr) :
    CallOutcome :=
  if s.text addr ≠ trapByte s.usingInt3 then .original
  else if s.isIntercepted addr then s.interceptTramp before addr
  else .killed

end InterceptState

variable {to_ : Intercept → Addr}

theorem foldl_redirectTo (is : List Intercept) (call : Call) (f : Addr) :
    (is.foldl (fun call i => redirectBefore to_ i call) call).redirectTo f = call.redirectTo f := by
  induction is generalizing call with
  | nil => rfl
  | cons i is ih =>
      rw [List.foldl_cons, ih]
      rfl

/-- The last redirection replaces those before it. -/
theorem foldl_redirectBefore {is : List Intercept} {m : Intercept} (h : is.getLast? = some m)
    (call : Call) :
    is.foldl (fun call i => redirectBefore to_ i call) call = call.redirectTo (to_ m) := by
  obtain ⟨is, rfl⟩ := List.getLast?_eq_some_iff.mp h
  rw [List.foldl_append]
  exact foldl_redirectTo is call (to_ m)

/-- A call of a mocked function goes where the mock that was installed last says. -/
theorem Patched.callFunction {orig : Addr → UInt8} {live : List Intercept} {s : InterceptState}
    (h : Patched orig live s) {f : Addr} {m : Intercept} (hm : (atAddr live f).getLast? = some m)
    (hto : to_ m ≠ 0) : s.callFunction (redirectBefore to_) f = .function (to_ m) := by
  have hne : atAddr live f ≠ [] := by
    intro he
    rw [he] at hm
    cases hm
  have htrap : s.text f = trapByte s.usingInt3 := by rw [h.text, if_neg hne]
  obtain ⟨as, has, -⟩ := h.installed_eq_some hne
  have hknown : s.isIntercepted f = true := by
    rw [InterceptState.isIntercepted, has]
    rfl
  rw [InterceptState.callFunction, if_neg (not_not.mpr htrap), if_pos hknown,
    InterceptState.interceptTramp, h.dispatchBefore, foldl_redirectBefore hm]
  exact if_pos hto

/-! ### The nodes of a test -/

/-- The mocks of a function on the first of some nodes that has any. -/
def firstMocks (nodes : List (List Intercept)) (f : Addr) : List Intercept :=
  ((nodes.map (atAddr · f)).find? (· ≠ [])).getD []

/-- The mocks of a function on the innermost node that has any; the nodes of a test are its own
and its ancestors, from the inside out. -/
def innermostMocks (nodes : List (List Intercept)) (f : Addr) : List Intercept :=
  firstMocks nodes f

/-- The last mock of a function on the outermost node that has any. -/
def outermostMock (nodes : List (List Intercept)) (f : Addr) : Option Intercept :=
  (firstMocks nodes.reverse f).getLast?

theorem atAddr_append (is js : List Intercept) (f : Addr) :
    atAddr (is ++ js) f = atAddr is f ++ atAddr js f := List.filter_append ..

theorem firstMocks_cons_of_nil {is : List Intercept} {f : Addr} (h : atAddr is f = [])
    (nodes : List (List Intercept)) : firstMocks (is :: nodes) f = firstMocks nodes f := by
  rw [firstMocks, List.map_cons, List.find?_cons_of_neg (by simpa using h)]
  rfl

theorem firstMocks_cons_of_ne {is : List Intercept} {f : Addr} (h : atAddr is f ≠ [])
    (nodes : List (List Intercept)) : firstMocks (is :: nodes) f = atAddr is f := by
  rw [firstMocks, List.map_cons, List.find?_cons_of_pos (by simpa using h)]
  rfl

/-- The mock of the outermost node is the last of all. -/
theorem outermostMock_eq (nodes : List (List Intercept)) (f : Addr) :
    outermostMock nodes f = (atAddr nodes.flatten f).getLast? := by
  induction nodes using List.reverseRecOn with
  | nil => rfl
  | append_singleton nodes is ih =>
      rw [outermostMock, List.reverse_append, List.reverse_singleton, List.singleton_append,
        List.flatten_append, List.flatten_singleton, atAddr_append]
      by_cases h : atAddr is f = []
      · rw [firstMocks_cons_of_nil h, h, List.append_nil]
        exact ih
      · rw [firstMocks_cons_of_ne h, List.getLast?_append_of_ne_nil _ h]

/-! ### A whole test -/

section
variable {orig : Addr → UInt8} {calls : List InterceptCall} {nodes : List (List Intercept)}
  {mocks : List MockCall} {vg : Bool} {instr : Addr → Addr}

/-- **The outermost mock is called**: between `pre_run` and `post_run`, while no dynamic mock of
the function is installed. -/
theorem preRun_calls_outermost (hc : ∀ c ∈ calls, Patchable orig c.intercept.addr)
    (hn : ∀ i ∈ nodes.flatten, Patchable orig i.addr ∧ i ∉ registered calls)
    (hm : ∀ c ∈ mocks, MockOk orig instr (registered calls ++ nodes.flatten) c)
    {f : Addr} {m : Intercept} (hf : outermostMock nodes f = some m) (hto : to_ m ≠ 0) :
    let t := MockState.inTest vg instr nodes mocks ((InterceptState.fresh orig).run vg calls)
    (∀ d ∈ t.dynamic, d.addr ≠ f) →
      t.icept.callFunction (redirectBefore to_) f = .function (to_ m) := by
  intro t hdyn
  have h := (inTest_mocking vg (patched_run vg hc) hn hm).grown.patched
  refine h.callFunction ?_ hto
  have hnone : atAddr t.dynamic f = [] :=
    List.filter_eq_nil_iff.mpr fun d hd => by simpa using hdyn d hd
  rw [outermostMock_eq] at hf
  rw [atAddr_append, atAddr_append, hnone, List.append_nil, List.getLast?_append, hf]
  rfl

/-- **A call goes to a mock of the innermost node** that mocks the function if and only if the last
mock of the outermost one calls the same function. -/
theorem innermost_mock_called_iff (hc : ∀ c ∈ calls, Patchable orig c.intercept.addr)
    (hn : ∀ i ∈ nodes.flatten, Patchable orig i.addr ∧ i ∉ registered calls)
    (hm : ∀ c ∈ mocks, MockOk orig instr (registered calls ++ nodes.flatten) c)
    (hto : ∀ i ∈ nodes.flatten, to_ i ≠ 0) {f : Addr} (hf : ∃ i ∈ nodes.flatten, i.addr = f) :
    let t := MockState.inTest vg instr nodes mocks ((InterceptState.fresh orig).run vg calls)
    (∀ d ∈ t.dynamic, d.addr ≠ f) →
      ((∃ i ∈ innermostMocks nodes f,
          t.icept.callFunction (redirectBefore to_) f = .function (to_ i)) ↔
        ∃ m ∈ outermostMock nodes f, ∃ i ∈ innermostMocks nodes f, to_ i = to_ m) := by
  intro t hdyn
  obtain ⟨m, hlast⟩ : ∃ m, outermostMock nodes f = some m := by
    obtain ⟨i, hi, ha⟩ := hf
    rw [outermostMock_eq]
    refine Option.isSome_iff_exists.mp (List.getLast?_isSome.mpr ?_)
    exact List.ne_nil_of_mem (List.mem_filter.mpr ⟨hi, decide_eq_true ha⟩)
  have hmem : m ∈ nodes.flatten := by
    rw [outermostMock_eq] at hlast
    exact (List.mem_filter.mp (List.mem_of_getLast? hlast)).1
  have hcall := preRun_calls_outermost hc hn hm hlast (hto m hmem) hdyn
  constructor
  · rintro ⟨i, hi, hgo⟩
    rw [hcall] at hgo
    exact ⟨m, hlast, i, hi, (CallOutcome.function.inj hgo).symm⟩
  · rintro ⟨m', hm', i, hi, he⟩
    cases hlast.symm.trans hm'
    exact ⟨i, hi, hcall.trans (by rw [he])⟩

end

/-- A file and its parent that mock the same function by one mock function. -/
theorem innermost_mock_called_shared :
    let nodes : List (List Intercept) := [[⟨1, 16⟩], [⟨2, 16⟩]]
    ∃ i ∈ innermostMocks nodes 16,
      (MockState.inTest false id nodes [.mock 3 32]
          (.fresh fun _ => insnPushRbp)).icept.callFunction
        (redirectBefore fun i => if i.addr = 16 then 100 else 300) 16 =
          .function (if i.addr = 16 then 100 else 300) := by
  intro nodes
  have hp : ∀ a, a ≠ 0 → Patchable (fun _ => insnPushRbp) a := fun a ha => ⟨ha, rfl⟩
  have hnone : ∀ c ∈ ([] : List InterceptCall),
      Patchable (fun _ => insnPushRbp) c.intercept.addr := fun c hc => absurd hc List.not_mem_nil
  refine (innermost_mock_called_iff hnone ?_ ?_ ?_ ⟨⟨1, 16⟩, by decide, rfl⟩ ?_).mpr
    ⟨⟨2, 16⟩, rfl, ⟨1, 16⟩, by decide, rfl⟩
  · intro i hi
    refine ⟨hp _ ?_, List.not_mem_nil⟩
    revert i
    decide
  · intro c hc
    rw [List.mem_singleton.mp hc]
    exact ⟨hp 32 (by decide), by decide⟩
  · decide
  · decide

/-- A file that mocks a function which its parent, or the root with its built-in mocks, mocks too:
the call goes to the parent's mock. -/
theorem outer_mock_called :
    let nodes : List (List Intercept) := [[⟨1, 16⟩], [⟨2, 16⟩]]
    let t := MockState.inTest false id nodes [] (.fresh fun _ => insnPushRbp)
    t.dynamic = [] ∧ innermostMocks nodes 16 = [⟨1, 16⟩] ∧
      t.icept.callFunction (redirectBefore fun i => 100 * i.this) 16 = .function 200 ∧
      ¬ ∃ i ∈ innermostMocks nodes 16,
        t.icept.callFunction (redirectBefore fun i => 100 * i.this) 16 =
          .function (100 * i.this) := by
  decide

end NovaProva
