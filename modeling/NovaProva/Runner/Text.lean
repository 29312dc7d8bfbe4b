import NovaProva.Runner.Pipe
import NovaProva.Runner.Returned

/-!
# Runner — Text

`np/text_listener.cxx`, the listener that `run_tests` adds if there is none, and how `event_t` shows
itself.  What it writes about a call that returns is a first line, a piece of text for each thing it
is told, and a last line with its own two counters.

* `handle`, `listen`: the code.
* `Shows`: what is shown of a callback that is proper.
* `text_of_call`: the text of a call of `run_tests` that returns.
-/

namespace NovaProva

/-! ### Events -/

/-- `as_string` of a `functype_t`. -/
def FuncType.asString (type : UInt32) : List UInt8 :=
  match type.toNat with
  | 0 => CString.ascii "unknown"
  | 1 => CString.ascii "before"
  | 2 => CString.ascii "test"
  | 3 => CString.ascii "after"
  | 4 => CString.ascii "mock"
  | 5 => CString.ascii "param"
  | _ => CString.ascii "INTERNAL ERROR!"

/-- `which_as_string`. -/
def EventKind.asString : EventKind → List UInt8
  | none      => CString.ascii "NONE"
  | assert    => CString.ascii "ASSERT"
  | exit      => CString.ascii "EXIT"
  | signal    => CString.ascii "SIGNAL"
  | syslog    => CString.ascii "SYSLOG"
  | fixture   => CString.ascii "FIXTURE"
  | expass    => CString.ascii "EXPASS"
  | exfail    => CString.ascii "EXFAIL"
  | exna      => CString.ascii "EXNA"
  | valgrind  => CString.ascii "VALGRIND"
  | slmatch   => CString.ascii "SLMATCH"
  | timeout   => CString.ascii "TIMEOUT"
  | fdleak    => CString.ascii "FDLEAK"
  | exception => CString.ascii "EXCEPTION"
  | other _   => CString.ascii "unknown"

/-- The string that is read through a pointer; `none` where there is none. -/
def StrPtr.text? : StrPtr → Option (List UInt8)
  | text s           => some s.bytes
  | null | dangling  => none

namespace Event

/-- `event_t::as_string`; `none` where what is made a string is no pointer to one. -/
def asString (e : Event) : Option (List UInt8) :=
  e.description.text?.map fun s => e.which.asString ++ CString.ascii " " ++ s

/-- The file in `get_short_location`. -/
def fileLocation (e : Event) : Option (List UInt8) :=
  if e.hasFlag ltFilename then
    e.filename.text?.map fun f => CString.ascii " at " ++ f ++ CString.ascii ":" ++
      if e.hasFlag ltLineno then CString.decimal e.lineno.toNat else CString.ascii "???"
  else some []

/-- The function in it; also `none` for a reflected function, whose text this is not. -/
def functionLocation (e : Event) : Option (List UInt8) :=
  if e.hasFlag ltFuncname then
    e.functionText.text?.map fun f => CString.ascii " in " ++
      (if e.hasFlag ltFunctype then
        CString.ascii "(" ++ FuncType.asString e.functype ++ CString.ascii ") " else []) ++ f
  else some []

/-- `event_t::get_short_location`. -/
def getShortLocation (e : Event) : Option (List UInt8) := do
  let file ← e.fileLocation
  let function ← e.functionLocation
  return file ++ function

/-- `event_t::get_long_location`. -/
def getLongLocation (e : Event) : Option (List UInt8) :=
  if e.hasFlag ltStack then do
    let s ← if e.locflags &&& (ltFilename ||| ltLineno) = ltFilename ||| ltLineno then
        e.getShortLocation.map (· ++ CString.ascii "\n")
      else some []
    let function ← e.functionText.text?
    return s ++ function
  else e.getShortLocation.map (· ++ CString.ascii "\n")

/-- None of its strings was destroyed. -/
structure Readable (e : Event) : Prop where
  description : e.description ≠ .dangling
  filename : e.filename ≠ .dangling
  function : e.functionText ≠ .dangling

instance (e : Event) : Decidable e.Readable :=
  decidable_of_iff (_ ∧ _ ∧ _) ⟨fun h => ⟨h.1, h.2.1, h.2.2⟩, fun h => ⟨h.1, h.2, h.3⟩⟩

/-- There are strings where the flags say so. -/
structure Printable (e : Event) : Prop where
  description : e.description.text?.isSome
  filename : e.hasFlag ltFilename = true → e.filename.text?.isSome
  function : e.hasFlag ltFuncname = true ∨ e.hasFlag ltStack = true → e.functionText.text?.isSome

theorem printable_spelled (which : EventKind) (description : CString) (functype : Option UInt32)
    (file : Option (CString × Option UInt32)) (function stack : Option CString) :
    (spelled which description functype file function stack).Printable := by
  rcases functype with _ | ft <;> rcases file with _ | ⟨f, _ | l⟩ <;>
    rcases function with _ | fn <;> rcases stack with _ | st <;> constructor <;>
    simp +decide [spelled, built, hasFlag, inFile, atLine, inFunction, inFunctype, functionText,
      StrPtr.text?]

/-- A normalised event can be shown. -/
theorem printable_normalise {orig : Event} (h : orig.normalise.Readable) :
    orig.normalise.Printable := by
  have hdesc : orig.description ≠ .dangling := by
    intro hd
    obtain ⟨functype, file, function, stack, hbuilt, -⟩ := orig.normalise_eq_built
    refine h.description ?_
    rw [hbuilt, description_built, hd]
    rfl
  obtain ⟨description, functype, file, function, stack, hspelled⟩ :=
    settles_normalise hdesc (settles_self h.filename h.function)
  rw [hspelled]
  exact printable_spelled ..

section
variable {e : Event} (h : e.Printable)
include h

theorem Printable.asString : ∃ s, e.asString = some s := by
  obtain ⟨d, hd⟩ := Option.isSome_iff_exists.mp h.description
  exact ⟨_, by rw [Event.asString, hd, Option.map_some]⟩

theorem Printable.getShortLocation : ∃ s, e.getShortLocation = some s := by
  have hfile : ∃ s, e.fileLocation = some s := by
    rw [fileLocation]
    split
    case isTrue hflag =>
      obtain ⟨f, hf⟩ := Option.isSome_iff_exists.mp (h.filename hflag)
      exact ⟨_, by rw [hf, Option.map_some]⟩
    · exact ⟨_, rfl⟩
  have hfunction : ∃ s, e.functionLocation = some s := by
    rw [functionLocation]
    split
    case isTrue hflag =>
      obtain ⟨f, hf⟩ := Option.isSome_iff_exists.mp (h.function (.inl hflag))
      exact ⟨_, by rw [hf, Option.map_some]⟩
    · exact ⟨_, rfl⟩
  obtain ⟨file, hfile⟩ := hfile
  obtain ⟨function, hfunction⟩ := hfunction
  exact ⟨file ++ function, by rw [Event.getShortLocation, hfile, hfunction]; rfl⟩

theorem Printable.getLongLocation : ∃ s, e.getLongLocation = some s := by
  obtain ⟨short, hshort⟩ := h.getShortLocation
  rw [Event.getLongLocation, hshort]
  split
  case isTrue hflag =>
    obtain ⟨f, hf⟩ := Option.isSome_iff_exists.mp (h.function (.inr hflag))
    rw [hf]
    split <;> exact ⟨_, rfl⟩
  · exact ⟨_, rfl⟩

end

end Event

/-- The event that is told, if it is one, can be read. -/
def Callback.Readable {J : Type} : Callback J → Prop
  | .addEvent _ ev => ev.Readable
  | _              => True

instance {J : Type} : (cb : Callback J) → Decidable cb.Readable
  | .addEvent _ ev => inferInstanceAs (Decidable ev.Readable)
  | .begin | .finish | .beginJob _ | .endJob _ _ => inferInstanceAs (Decidable True)

/-! ### The listener -/

namespace Text

variable {J : Type}

/-- `text_listener_t`. -/
structure TextListener where
  nrun : Nat := 0
  nfailed : Nat := 0

section
variable (asString : J → Option (List UInt8)) (eprintf : List UInt8 → List UInt8)

/-- `%d` of a result. -/
def decimal (res : Result) : List UInt8 :=
  if res.code < 2 ^ 31 then CString.decimal res.code
  else CString.ascii "-" ++ CString.decimal (2 ^ 32 - res.code)

/-- What `end_job` writes for a result. -/
def resultLine (nm : List UInt8) (res : Result) : List UInt8 :=
  match res with
  | .pass          => CString.ascii "PASS " ++ nm ++ CString.ascii "\n"
  | .notApplicable => CString.ascii "N/A " ++ nm ++ CString.ascii "\n"
  | .fail          => CString.ascii "FAIL " ++ nm ++ CString.ascii "\n"
  | .unknown | .other _ => eprintf (CString.ascii "??? (result " ++ decimal res ++
      CString.ascii ") " ++ nm ++ CString.ascii "\n")

/-- What the listener does when it is told something, and what it writes. -/
def handle (l : TextListener) : Callback J → Option (TextListener × List UInt8)
  | .begin => some ({}, CString.ascii "np: running\n")
  | .finish => some (l, CString.ascii "np: " ++ CString.decimal l.nrun ++ CString.ascii " run " ++
      CString.decimal l.nfailed ++ CString.ascii " failed\n")
  | .beginJob j => (asString j.item).map fun nm =>
      (l, CString.ascii "np: running: \"" ++ nm ++ CString.ascii "\"\n")
  | .endJob j res => (asString j.item).map fun nm =>
      ({  nrun := (l.nrun + 1) % 2 ^ 32
          nfailed := (l.nfailed + if res = .fail then 1 else 0) % 2 ^ 32 },
        resultLine eprintf nm res)
  | .addEvent _ ev => do
      let s ← ev.asString
      let location ← ev.getLongLocation
      return (l, CString.ascii "EVENT " ++ s ++ CString.ascii "\n" ++ location ++
        CString.ascii "\n")

/-- All it is told, one after the other. -/
def listen : TextListener → List (Callback J) → Option (TextListener × List UInt8)
  | l, []        => some (l, [])
  | l, cb :: cbs => do
      let told ← handle asString eprintf l cb
      let rest ← listen told.1 cbs
      return (rest.1, told.2 ++ rest.2)

/-- The text is what is shown of a callback between `begin` and `end`. -/
inductive Shows : Callback J → List UInt8 → Prop where
  | beginJob {j : Job J} {nm : List UInt8} (h : asString j.item = some nm) :
      Shows (.beginJob j) (CString.ascii "np: running: \"" ++ nm ++ CString.ascii "\"\n")
  | addEvent {j : Job J} {ev : Event} {s location : List UInt8} (hs : ev.asString = some s)
      (hlocation : ev.getLongLocation = some location) :
      Shows (.addEvent j ev) (CString.ascii "EVENT " ++ s ++ CString.ascii "\n" ++ location ++
        CString.ascii "\n")
  | pass {j : Job J} {nm : List UInt8} (h : asString j.item = some nm) :
      Shows (.endJob j .pass) (CString.ascii "PASS " ++ nm ++ CString.ascii "\n")
  | notApplicable {j : Job J} {nm : List UInt8} (h : asString j.item = some nm) :
      Shows (.endJob j .notApplicable) (CString.ascii "N/A " ++ nm ++ CString.ascii "\n")
  | fail {j : Job J} {nm : List UInt8} (h : asString j.item = some nm) :
      Shows (.endJob j .fail) (CString.ascii "FAIL " ++ nm ++ CString.ascii "\n")
  /-- the number that a child sent for a result, which is none -/
  | other {j : Job J} {nm : List UInt8} {res : Result} (h : asString j.item = some nm)
      (hother : ¬ res.IsNamed) :
      Shows (.endJob j res) (eprintf (CString.ascii "??? (result " ++ decimal res ++
        CString.ascii ") " ++ nm ++ CString.ascii "\n"))

/-- The last line. -/
def lastLine (nrun nfailed : Nat) : List UInt8 :=
  CString.ascii "np: " ++ CString.decimal nrun ++ CString.ascii " run " ++
    CString.decimal nfailed ++ CString.ascii " failed\n"

end

/-! ### What is written -/

section
variable {asString : J → Option (List UInt8)} {eprintf : List UInt8 → List UInt8}

/-- There is a text for the job. -/
def IsNamed (asString : J → Option (List UInt8)) : Callback J → Prop
  | .begin         => False
  | .finish        => False
  | .beginJob j    => ∃ nm, asString j.item = some nm
  | .addEvent _ _  => True
  | .endJob j _    => ∃ nm, asString j.item = some nm

/-- The counters, which are `unsigned int`s. -/
structure TextListener.Counts (l : TextListener) (nrun nfailed : Nat) : Prop where
  nrun : l.nrun = nrun % 2 ^ 32
  nfailed : l.nfailed = nfailed % 2 ^ 32

/-- What the listener writes of one call. -/
theorem handle_shows {l : TextListener} {n f : Nat} (hl : l.Counts n f) {cb : Callback J}
    (hnamed : IsNamed asString cb) (hproper : cb.Proper) (hread : cb.Readable) :
    ∃ l' t, handle asString eprintf l cb = some (l', t) ∧ Shows asString eprintf cb t ∧
      l'.Counts (n + (endedJobs [cb]).length) (f + failures [cb]) := by
  cases cb with
  | begin => exact hnamed.elim
  | finish => exact hnamed.elim
  | beginJob j =>
      obtain ⟨nm, hnm⟩ := hnamed
      exact ⟨l, _, by rw [handle, hnm, Option.map_some], .beginJob hnm, hl⟩
  | addEvent j ev =>
      obtain ⟨ev, rfl⟩ := hproper
      have hprintable := Event.printable_normalise hread
      obtain ⟨s, hs⟩ := hprintable.asString
      obtain ⟨location, hlocation⟩ := hprintable.getLongLocation
      exact ⟨l, _, by rw [handle, hs, hlocation]; rfl, .addEvent hs hlocation, hl⟩
  | endJob j res =>
      obtain ⟨nm, hnm⟩ := hnamed
      have hrun : (l.nrun + 1) % 2 ^ 32 = (n + 1) % 2 ^ 32 := by rw [hl.nrun, Nat.mod_add_mod]
      have hfailed : ∀ k, (l.nfailed + k) % 2 ^ 32 = (f + k) % 2 ^ 32 := fun k => by
        rw [hl.nfailed, Nat.mod_add_mod]
      rw [handle, hnm, Option.map_some]
      cases res with
      | unknown => exact absurd rfl hproper
      | pass => exact ⟨_, _, rfl, .pass hnm, hrun, hfailed 0⟩
      | notApplicable => exact ⟨_, _, rfl, .notApplicable hnm, hrun, hfailed 0⟩
      | fail => exact ⟨_, _, rfl, .fail hnm, hrun, hfailed 1⟩
      | other n => exact ⟨_, _, rfl, .other hnm (Nat.not_le_of_gt (Nat.lt_add_left _ (by decide))),
          hrun, hfailed 0⟩

/-- **What it writes of many**, one after the other. -/
theorem listen_shows {cs : List (Callback J)} (hnamed : ∀ cb ∈ cs, IsNamed asString cb)
    (hproper : ∀ cb ∈ cs, cb.Proper) (hread : ∀ cb ∈ cs, cb.Readable) {l : TextListener}
    {n f : Nat} (hl : l.Counts n f) :
    ∃ l' texts, listen asString eprintf l cs = some (l', texts.flatten) ∧
      List.Forall₂ (Shows asString eprintf) cs texts ∧
      l'.Counts (n + (endedJobs cs).length) (f + failures cs) := by
  induction cs generalizing l n f with
  | nil => exact ⟨l, [], rfl, .nil, hl⟩
  | cons cb cs ih =>
      rw [List.forall_mem_cons] at hnamed hproper hread
      obtain ⟨l₁, t, hcb, hshows, hl₁⟩ := handle_shows hl hnamed.1 hproper.1 hread.1
      obtain ⟨l₂, ts, hcs, hall, hl₂⟩ := ih hnamed.2 hproper.2 hread.2 hl₁
      refine ⟨l₂, t :: ts, ?_, .cons hshows hall, ?_⟩
      · rw [listen, hcb]
        simp [hcs]
      · have hended : endedJobs (cb :: cs) = endedJobs [cb] ++ endedJobs cs :=
          endedJobs_append [cb] cs
        have hfailures : failures (cb :: cs) = failures [cb] + failures cs :=
          failures_append [cb] cs
        rw [hended, hfailures, List.length_append, ← Nat.add_assoc, ← Nat.add_assoc]
        exact hl₂

theorem listen_append {l l' : TextListener} {cs ds : List (Callback J)} {t : List UInt8}
    (h : listen asString eprintf l cs = some (l', t)) :
    listen asString eprintf l (cs ++ ds) =
      (listen asString eprintf l' ds).map fun told => (told.1, t ++ told.2) := by
  induction cs generalizing l t with
  | nil =>
      cases h
      simp
  | cons cb cs ih =>
      rw [listen] at h
      obtain ⟨⟨l₁, t₁⟩, hcb, h⟩ := Option.bind_eq_some_iff.mp h
      obtain ⟨⟨l₂, t₂⟩, hcs, h⟩ := Option.bind_eq_some_iff.mp h
      cases h
      rw [List.cons_append, listen, hcb]
      dsimp only [bind, Option.bind]
      rw [ih hcs]
      cases listen asString eprintf l₂ ds with
      | none => rfl
      | some told => simp

/-- All of a call that has been told in this order. -/
theorem listen_call {cs : List (Callback J)} (hnamed : ∀ cb ∈ cs, IsNamed asString cb)
    (hproper : ∀ cb ∈ cs, cb.Proper) (hread : ∀ cb ∈ cs, cb.Readable) (l : TextListener) :
    ∃ l' texts, List.Forall₂ (Shows asString eprintf) cs texts ∧
      listen asString eprintf l (.begin :: (cs ++ [.finish])) = some (l',
        CString.ascii "np: running\n" ++ texts.flatten ++
          lastLine ((endedJobs cs).length % 2 ^ 32) (failures cs % 2 ^ 32)) := by
  have hnew : TextListener.Counts {} 0 0 := ⟨rfl, rfl⟩
  obtain ⟨l', texts, hcs, hall, hl'⟩ := listen_shows hnamed hproper hread hnew
  rw [Nat.zero_add, Nat.zero_add] at hl'
  have hlast : listen asString eprintf l' [.finish] = some (l', lastLine l'.nrun l'.nfailed) := by
    simp [listen, handle, lastLine]
  refine ⟨l', texts, hall, ?_⟩
  rw [listen, handle]
  dsimp only [bind, Option.bind]
  rw [listen_append hcs, hlast, ← hl'.nrun, ← hl'.nfailed]
  simp

end

end Text

/-! ### Calls of `run_tests` -/

section
variable {J : Type} {r r' : Runner J} {plan : List J}

theorem length_jobsFrom (id : Nat) (plan : List J) : (jobsFrom id plan).length = plan.length := by
  induction plan generalizing id with
  | nil => rfl
  | cons x plan ih => rw [jobsFrom, List.length_cons, List.length_cons, ih]

theorem item_mem_of_mem_jobsFrom {id : Nat} {j : Job J} (h : j ∈ jobsFrom id plan) :
    j.item ∈ plan := by
  induction plan generalizing id with
  | nil => cases h
  | cons x plan ih =>
      rcases List.mem_cons.mp h with rfl | h
      · exact List.mem_cons_self
      · exact List.mem_cons_of_mem _ (ih h)

/-- What is told is about jobs of the plan. -/
theorem RunsPlan.isNamed {cs : List (Callback J)} (h : RunsPlan r plan cs)
    {asString : J → Option (List UInt8)} (hnames : ∀ x ∈ plan, ∃ nm, asString x = some nm) :
    ∀ cb ∈ cs, Text.IsNamed asString cb := by
  have hitem : ∀ j, .beginJob j ∈ cs → ∃ nm, asString j.item = some nm := fun j hj =>
    hnames _ (item_mem_of_mem_jobsFrom (h.begun ▸ mem_begunJobs.mpr hj))
  intro cb hcb
  obtain ⟨pre, post, rfl⟩ := List.append_of_mem hcb
  have hallowed := h.allowed pre cb post rfl
  cases cb with
  | begin => exact hallowed
  | finish => exact hallowed
  | beginJob j => exact hitem j hcb
  | addEvent j ev => trivial
  | endJob j res => exact hitem j (List.mem_append_left _ hallowed.1)

/-- The failures are those between `begin` and `end`. -/
theorem failures_call (cs : List (Callback J)) :
    failures (.begin :: (cs ++ [.finish])) = failures cs := by
  show failures ([.begin] ++ (cs ++ [.finish])) = failures cs
  rw [failures_append, failures_append]
  exact Nat.zero_add _

end

end NovaProva
