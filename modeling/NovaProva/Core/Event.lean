import NovaProva.Core.Types
import Mathlib.Data.List.TakeWhile
import NovaProva.Lib.Bytes

/-!
# Core — Event

`np/event.hxx` and `np/event.cxx`: something that happened while a test ran.  An event is built
where it happens, with whatever location is known there, and `normalise` reduces it to the
strings that can be sent to another process and shown to the user.
-/

namespace NovaProva

/-- A C string: the bytes before its terminating NUL. -/
structure CString where
  bytes : List UInt8
  noNul : 0 ∉ bytes
  deriving DecidableEq

namespace CString

/-- The C string at the start of a buffer: everything before the first NUL. -/
def ofBuffer (bs : List UInt8) : CString where
  bytes := bs.takeWhile (· != 0)
  noNul h := by simpa using List.mem_takeWhile_imp h

/-- A string in a buffer is read to its zero. -/
@[simp] theorem bytes_ofBuffer_terminated (s : CString) : ofBuffer (s.bytes ++ [0]) = s := by
  have h : ∀ b ∈ s.bytes, (b != 0) = true := by
    intro b hb
    rw [bne_iff_ne]
    rintro rfl
    exact s.noNul hb
  obtain ⟨bs, hn⟩ := s
  simp only [ofBuffer, mk.injEq]
  rw [List.takeWhile_append_of_pos h]
  simp

/-- The bytes of an ASCII text. -/
def ascii (s : String) : List UInt8 := s.toList.map fun c => UInt8.ofNat c.toNat

/-- `%d` and `%u` of a non-negative number. -/
def decimal (n : Nat) : List UInt8 := (Nat.toDigits 10 n).map fun c => UInt8.ofNat c.toNat

/-- `snprintf` into a buffer of `size` bytes. -/
def snprintf (size : Nat) (bs : List UInt8) : CString := ofBuffer (bs.take (size - 1))

/-- The empty string. -/
def empty : CString := ⟨[], by simp⟩

theorem eq_empty_iff {s : CString} : s = empty ↔ s.bytes = [] := by
  obtain ⟨bs, hn⟩ := s
  simp [empty]

end CString

/-- A `const char *`. -/
inductive StrPtr where
  | null
  | text (s : CString)
  /-- the string it pointed at was destroyed -/
  | dangling
  deriving DecidableEq

namespace StrPtr

instance : Coe CString StrPtr := ⟨text⟩

/-- The string it points at, a null pointer being taken for the empty one. -/
def string? : StrPtr → Option CString
  | null     => some .empty
  | text s   => some s
  | dangling => none

/-- What may be found where a pointer points: what is there, and any string where none is any
more. -/
inductive Settles : StrPtr → StrPtr → Prop where
  | same {p : StrPtr} (h : p ≠ dangling) : Settles p p
  | found (s : CString) : Settles dangling (text s)

end StrPtr

/-- `xstr`: a null pointer reads as the empty string. -/
def xstr : StrPtr → StrPtr
  | .null => .text .empty
  | p     => p

/-- `events_t`, with the zero the default constructor stores; `other n` is a number above
`EV_EXCEPTION`, which the code casts when it comes from the event pipe and keeps as it is. -/
inductive EventKind where
  | none
  | assert
  | exit
  | signal
  | syslog
  | fixture
  | expass
  | exfail
  | exna
  | valgrind
  | slmatch
  | timeout
  | fdleak
  | exception
  | other (n : Fin (2 ^ 32 - 14))
  deriving DecidableEq, Repr

namespace EventKind

/-- The number of an event. -/
def code : EventKind → Nat
  | none      => 0
  | assert    => 1
  | exit      => 2
  | signal    => 3
  | syslog    => 4
  | fixture   => 5
  | expass    => 6
  | exfail    => 7
  | exna      => 8
  | valgrind  => 9
  | slmatch   => 10
  | timeout   => 11
  | fdleak    => 12
  | exception => 13
  | other n   => n.val + 14

/-- `(enum events_t)n` of an `unsigned int`. -/
def ofCode : Nat → EventKind
  | 0  => none
  | 1  => assert
  | 2  => exit
  | 3  => signal
  | 4  => syslog
  | 5  => fixture
  | 6  => expass
  | 7  => exfail
  | 8  => exna
  | 9  => valgrind
  | 10 => slmatch
  | 11 => timeout
  | 12 => fdleak
  | 13 => exception
  | n + 14 => other ⟨n % (2 ^ 32 - 14), Nat.mod_lt _ (by decide)⟩

/-- A kind survives the pipe. -/
@[simp] theorem ofCode_code (k : EventKind) : ofCode k.code = k := by
  cases k with
  | other n =>
      show other ⟨n.val % (2 ^ 32 - 14), _⟩ = other n
      simp only [Nat.mod_eq_of_lt n.isLt]
  | _ => rfl

/-- Its number has 32 bits. -/
theorem code_lt (k : EventKind) : k.code < 2 ^ 32 := by
  cases k with
  | other n => exact Nat.add_lt_of_lt_sub n.isLt
  | _ => decide

end EventKind

/-- `event_t::locflags_t`. -/
def ltFilename : UInt32 := 1
/-- `LT_LINENO`. -/
def ltLineno : UInt32 := 2
/-- `LT_FUNCNAME`. -/
def ltFuncname : UInt32 := 4
/-- `LT_SPIEGELFUNC`. -/
def ltSpiegelfunc : UInt32 := 8
/-- `LT_STACK`. -/
def ltStack : UInt32 := 16
/-- `LT_FUNCTYPE`. -/
def ltFunctype : UInt32 := 32
/-- Any of those that say what `function` points at. -/
def ltFunction : UInt32 := ltFuncname ||| ltSpiegelfunc ||| ltStack

/-- What `event_t::function` points at: a string, or (under `ltSpiegelfunc`) a reflected function,
of which `normalise` reads the absolute path of its compile unit and its name. -/
inductive FuncRef where
  | str (p : StrPtr)
  | spiegel (path name : CString)
  deriving DecidableEq

/-- `event_t`; `functype` is a `functype_t`, of any number when it comes from the event pipe. -/
structure Event where
  which : EventKind := .none
  description : StrPtr := .null
  locflags : UInt32 := 0
  filename : StrPtr := .null
  lineno : UInt32 := 0
  function : FuncRef := .str .null
  functype : UInt32 := FuncType.unknown.code
  deriving DecidableEq

namespace Event

/-- Whether one of the flags `f` is set. -/
def hasFlag (e : Event) (f : UInt32) : Bool := e.locflags &&& f != 0

/-- `at_line`. -/
def atLine (e : Event) (f : StrPtr) (l : UInt32) : Event :=
  { e with locflags := e.locflags ||| (ltFilename ||| ltLineno), filename := f, lineno := l }

/-- `in_file` of a `const char *`. -/
def inFile (e : Event) (f : StrPtr) : Event :=
  { e with locflags := e.locflags ||| ltFilename, filename := f }

/-- `in_function` of a `const char *`. -/
def inFunction (e : Event) (fn : StrPtr) : Event :=
  { e with locflags := (e.locflags &&& ~~~ltFunction) ||| ltFuncname, function := .str fn }

/-- `in_function` of a reflected function. -/
def inSpiegelFunction (e : Event) (path name : CString) : Event :=
  { e with
    locflags := (e.locflags &&& ~~~ltFunction) ||| ltSpiegelfunc
    function := .spiegel path name }

/-- `in_functype`. -/
def inFunctype (e : Event) (ft : UInt32) : Event :=
  { e with locflags := e.locflags ||| ltFunctype, functype := ft }

/-- `event_t::function`, taken for a string. -/
def functionText (e : Event) : StrPtr :=
  match e.function with
  | .str p       => p
  | .spiegel _ _ => .dangling

/-- The location part of `normalise` for an event that names no reflected function. -/
def normaliseLocation (e orig : Event) : Event :=
  let e :=
    if orig.locflags &&& (ltFilename ||| ltLineno) = ltFilename ||| ltLineno then
      e.atLine (xstr orig.filename) orig.lineno
    else if orig.hasFlag ltFilename then
      e.inFile (xstr orig.filename)
    else e
  let e := if orig.hasFlag ltFuncname then e.inFunction (xstr orig.functionText) else e
  if orig.hasFlag ltStack then
    { e with locflags := e.locflags ||| ltStack, function := .str (xstr orig.functionText) }
  else e

/-- `event_t::normalise`, called on a default-constructed event. -/
def normalise (orig : Event) : Event :=
  let e : Event := { which := orig.which, description := xstr orig.description }
  let e := if orig.hasFlag ltFunctype then e.inFunctype orig.functype else e
  if orig.hasFlag ltSpiegelfunc then
    -- `filebuf` and `funcbuf` are passed by value to the `std::string` overloads of `in_file` and
    -- `in_function`, which keep `c_str()` of their own argument: that is gone when they return.
    -- (Nor is there anything to read for a string that is taken for a function.)
    (e.inFile .dangling).inFunction .dangling
  else normaliseLocation e orig

/-- `event_t::get_result`. -/
def getResult (e : Event) : Result :=
  match e.which with
  | .assert | .exit | .signal | .fixture | .valgrind | .slmatch | .timeout | .fdleak
  | .exception => .fail
  | .expass => .pass
  | .exfail => .fail
  | .exna => .notApplicable
  | .none | .syslog | .other _ => .unknown

/-- The result of an event is one that has a name. -/
theorem isNamed_getResult (e : Event) : e.getResult.IsNamed := by
  rw [getResult]
  split <;> decide

/-- A test that failed stays failed whatever its events say. -/
@[simp] theorem fail_merge_getResult (e : Event) : Result.merge .fail e.getResult = .fail :=
  e.isNamed_getResult.fail_merge

theorem which_normaliseLocation (e orig : Event) : (normaliseLocation e orig).which = e.which := by
  simp only [normaliseLocation]
  split_ifs <;> rfl

/-- `normalise` keeps the kind. -/
@[simp] theorem which_normalise (e : Event) : e.normalise.which = e.which := by
  simp only [normalise]
  split
  · split <;> rfl
  · rw [which_normaliseLocation]
    split <;> rfl

/-- Normalising an event keeps its verdict. -/
@[simp] theorem getResult_normalise (e : Event) : e.normalise.getResult = e.getResult := by
  simp only [getResult, which_normalise]

end Event

end NovaProva
