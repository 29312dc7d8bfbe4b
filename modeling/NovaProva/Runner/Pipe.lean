import NovaProva.Runner.Proxy

/-!
# Runner — Pipe

`proxy_listener_t::handle_call` on a pipe that gives its bytes out in pieces.  A `read` returns
what is left of one piece at most, so `deserialise_bytes` goes round until it has all it was asked
for; how the stream is cut into pieces makes no difference to what is read.

* `refines_call`: reading one call from a pipe is reading it from the pipe's unread bytes.
* `Event.settles_normalise`: what is found where the pointers of a normalised event point.
* `handleCalls_delivers_events`: an event that was normalised once is delivered as it is.
-/

namespace NovaProva

/-! ### Short reads -/

/-- What is unread in a pipe that was written to its end, in the pieces that `read` finds. -/
structure Pipe where
  pieces : List (List UInt8)
  nonempty : ∀ c ∈ pieces, c ≠ []

namespace Pipe

/-- What is still in the pipe. -/
def unread (p : Pipe) : List UInt8 := p.pieces.flatten

/-- A pipe with nothing in it. -/
def empty : Pipe := ⟨[], fun _ h => nomatch h⟩

/-- `read`: a piece, or as much of it as there is room for; nothing at the end of the stream. -/
def read (p : Pipe) (len : Nat) : List UInt8 × Pipe :=
  match p with
  | ⟨[], _⟩      => ([], .empty)
  | ⟨c :: cs, h⟩ =>
      if hlt : len < c.length then
        (c.take len, ⟨c.drop len :: cs, by
          intro d hd
          rcases List.mem_cons.mp hd with rfl | hd
          · exact List.ne_nil_of_length_pos (by rw [List.length_drop]; omega)
          · exact h d (List.mem_cons_of_mem _ hd)⟩)
      else (c, ⟨cs, fun d hd => h d (List.mem_cons_of_mem _ hd)⟩)

/-- The loop of `deserialise_bytes`.  A round reads at least one byte, so that `len` bounds the
number of rounds. -/
def readLoop : Nat → Nat → StateT Pipe Option (List UInt8)
  | _,     0       => fun p => some ([], p)
  | 0,     _ + 1   => fun _ => none
  | n + 1, len + 1 => fun p =>
      let (bs, p') := p.read (len + 1)
      -- end of file
      if bs.length = 0 then none
      else (readLoop n (len + 1 - bs.length) p').map fun q => (bs ++ q.1, q.2)

/-- `deserialise_bytes`. -/
def deserialiseBytes (len : Nat) : StateT Pipe Option (List UInt8) := readLoop len len

/-- What `read` returns is taken off the stream; it is nothing only at the end. -/
theorem read_spec (p : Pipe) (len : Nat) :
    (p.read (len + 1)).1 ++ (p.read (len + 1)).2.unread = p.unread ∧
      (p.read (len + 1)).1.length ≤ len + 1 ∧
      ((p.read (len + 1)).1.length = 0 → p.unread = []) := by
  obtain ⟨pieces, hp⟩ := p
  cases pieces with
  | nil => exact ⟨rfl, Nat.zero_le _, fun _ => rfl⟩
  | cons c cs =>
      have hc : c ≠ [] := hp c List.mem_cons_self
      have hpos : 0 < c.length := List.length_pos_of_ne_nil hc
      rw [read]
      split
      case isTrue hlt =>
        refine ⟨?_, ?_, fun h => ?_⟩
        · simp [unread, ← List.append_assoc]
        · exact List.length_take_le _ _
        · rw [List.length_take] at h
          omega
      case isFalse hge =>
        exact ⟨rfl, Nat.le_of_not_lt hge, fun h => absurd h hpos.ne'⟩

/-- The loop returns the next `len` bytes, however they are cut. -/
theorem readLoop_eq {n len : Nat} (h : len ≤ n) (p : Pipe) :
    (readLoop n len p).map (fun q => (q.1, q.2.unread)) = Decoder.bytes len p.unread := by
  induction n generalizing len p with
  | zero =>
      obtain rfl : len = 0 := by omega
      simp [readLoop, Decoder.bytes]
  | succ n ih =>
      cases len with
      | zero => simp [readLoop, Decoder.bytes]
      | succ len =>
          obtain ⟨happ, hle, hend⟩ := p.read_spec len
          rw [readLoop]
          dsimp only
          split
          case isTrue h0 =>
            rw [hend h0, Decoder.bytes, if_neg (by simp)]
            rfl
          case isFalse hpos =>
            have hrest := ih (Nat.sub_le_of_le_add (by omega) :
              len + 1 - (p.read (len + 1)).1.length ≤ n) (p.read (len + 1)).2
            rw [← happ, Decoder.bytes_append hle, ← hrest, Option.map_map, Option.map_map]
            rfl

end Pipe

/-! ### The calls -/

/-! The functions above `deserialise_bytes`, over any source of bytes. -/
namespace Deserialise

variable {m : Type → Type} [Monad m] (deserialiseBytes : Nat → m (List UInt8))

/-- `deserialise_uint`. -/
def uint : m Nat := do
  let bs ← deserialiseBytes 4
  return Bytes.leNat bs

/-- `deserialise_string`. -/
def string : m CString := do
  let len ← uint deserialiseBytes
  if len = 0 then return .empty
  else
    let buf ← deserialiseBytes ((len + 1) % 2 ^ 32)
    return .ofBuffer buf

/-- `deserialise_event`. -/
def event : m Event := do
  let which ← uint deserialiseBytes
  let description ← string deserialiseBytes
  let locflags ← uint deserialiseBytes
  let filename ← string deserialiseBytes
  let lineno ← uint deserialiseBytes
  let function ← string deserialiseBytes
  let ft ← uint deserialiseBytes
  return {
    which := .ofCode which
    description := description
    locflags := .ofNat locflags
    filename := filename
    lineno := .ofNat lineno
    function := .str function
    functype := .ofNat ft }

/-- One call, `none` for a call number that is not one. -/
def call : m (Option Message) := do
  let which ← uint deserialiseBytes
  if which = proxyEvent then
    let e ← event deserialiseBytes
    return some (.event e)
  else if which = proxyFinished then
    let res ← uint deserialiseBytes
    return some (.finished (.ofCode res))
  else return none

end Deserialise

/-- What `handle_call` does to the outside: its return value, the event it raises, and `*resp`. -/
structure CallResult where
  again : Bool
  event : Option Event
  resp : Result
  deriving DecidableEq

/-- `proxy_listener_t::handle_call` on a pipe. -/
def Pipe.handleCall (resp : Result) (p : Pipe) : CallResult × Pipe :=
  match Deserialise.call Pipe.deserialiseBytes p with
  | some (some (.event ev), p') =>
      (⟨true, some ev.normalise, resp.merge ev.normalise.getResult⟩, p')
  | some (some (.finished res), p') => (⟨false, none, resp.merge res⟩, p')
  -- decoding failed, so fail the test
  | some (none, p') => (⟨false, none, resp.merge .fail⟩, p')
  | none => (⟨false, none, resp.merge .fail⟩, .empty)

/-- `n` successive calls of `handle_call`. -/
def Pipe.handleCalls : Nat → Result → Pipe → List CallResult × Pipe
  | 0,     _,    p => ([], p)
  | n + 1, resp, p =>
      let (h, p') := p.handleCall resp
      let (hs, p'') := handleCalls n h.resp p'
      (h :: hs, p'')

/-! ### Reading from a pipe -/

theorem refines_bytes (n : Nat) :
    Decoder.Refines Pipe.unread (Pipe.deserialiseBytes n) (Decoder.bytes n) :=
  fun p => Pipe.readLoop_eq (Nat.le_refl n) p

theorem refines_uint :
    Decoder.Refines Pipe.unread (Deserialise.uint Pipe.deserialiseBytes) deserialiseUint :=
  .bind (refines_bytes 4) fun _ => .pure _

theorem refines_string :
    Decoder.Refines Pipe.unread (Deserialise.string Pipe.deserialiseBytes) deserialiseString := by
  refine .bind refines_uint fun len => ?_
  split
  · exact .pure _
  · exact .bind (refines_bytes _) fun _ => .pure _

theorem refines_event :
    Decoder.Refines Pipe.unread (Deserialise.event Pipe.deserialiseBytes) deserialiseEvent :=
  .bind refines_uint fun _ => .bind refines_string fun _ => .bind refines_uint fun _ =>
    .bind refines_string fun _ => .bind refines_uint fun _ => .bind refines_string fun _ =>
      .bind refines_uint fun _ => .pure _

/-- Reading one call from a pipe is reading it from the pipe's unread bytes. -/
theorem refines_call :
    Decoder.Refines Pipe.unread (Deserialise.call Pipe.deserialiseBytes) deserialiseCall := by
  refine .bind refines_uint fun which => ?_
  split
  · exact .bind refines_event fun _ => .pure _
  · split
    · exact .bind refines_uint fun _ => .pure _
    · exact .pure _

/-- `handle_call` on a pipe is `handle_call` on its unread bytes, with nothing more to come. -/
theorem Pipe.handleCall_refines (resp : Result) (p : Pipe) :
    NovaProva.handleCall resp true p.unread =
      some ⟨(p.handleCall resp).1.again, (p.handleCall resp).1.event, (p.handleCall resp).1.resp,
        (p.handleCall resp).2.unread⟩ := by
  rw [NovaProva.handleCall, ← refines_call p, Pipe.handleCall]
  rcases Deserialise.call Pipe.deserialiseBytes p with _ | ⟨_ | m, p'⟩
  · rfl
  · rfl
  · cases m with
    | event ev => rfl
    | finished res => rfl

/-! ### Normalised events -/

namespace Event

/-- An event with these parts and no others. -/
def built (which : EventKind) (description : StrPtr) (functype : Option UInt32)
    (file : Option (StrPtr × Option UInt32)) (function stack : Option StrPtr) : Event :=
  let e : Event := { which := which, description := description }
  let e := functype.elim e e.inFunctype
  let e := file.elim e fun p => p.2.elim (e.inFile p.1) (e.atLine p.1)
  let e := function.elim e e.inFunction
  stack.elim e fun s => { e with locflags := e.locflags ||| ltStack, function := .str s }

/-- **What `normalise` makes** has such parts, whatever it is made of, and no null pointers. -/
theorem normalise_eq_built (orig : Event) : ∃ functype file function stack,
    orig.normalise = built orig.which (xstr orig.description) functype file function stack ∧
      (∀ p ∈ file, p.1 ≠ .null) ∧ (∀ p ∈ function, p ≠ .null) ∧ ∀ p ∈ stack, p ≠ .null := by
  obtain ⟨functype, hfunctype⟩ : ∃ functype : Option UInt32,
      (if orig.hasFlag ltFunctype then
        inFunctype { which := orig.which, description := xstr orig.description } orig.functype
      else { which := orig.which, description := xstr orig.description }) =
        built orig.which (xstr orig.description) functype none none none := by
    by_cases hflag : orig.hasFlag ltFunctype = true
    · exact ⟨some orig.functype, by rw [if_pos hflag]; rfl⟩
    · exact ⟨none, by rw [if_neg hflag]; rfl⟩
  rw [normalise, hfunctype]
  split
  · exact ⟨functype, some (.dangling, none), some .dangling, none, rfl, by simp, by simp, by simp⟩
  · have hnull : ∀ p : StrPtr, xstr p ≠ .null := fun p => by cases p <;> simp [xstr]
    refine ⟨functype,
      if orig.locflags &&& (ltFilename ||| ltLineno) = ltFilename ||| ltLineno then
        some (xstr orig.filename, some orig.lineno)
      else if orig.hasFlag ltFilename then some (xstr orig.filename, none) else none,
      if orig.hasFlag ltFuncname then some (xstr orig.functionText) else none,
      if orig.hasFlag ltStack then some (xstr orig.functionText) else none, ?_, ?_, ?_, ?_⟩
    · simp only [normaliseLocation, built]
      split_ifs <;> rfl
    · split_ifs <;> simp [hnull]
    · split_ifs <;> simp [hnull]
    · split_ifs <;> simp [hnull]

/-- An event all of whose pointers point at strings. -/
def spelled (which : EventKind) (description : CString) (functype : Option UInt32)
    (file : Option (CString × Option UInt32)) (function stack : Option CString) : Event :=
  built which description functype (file.map fun p => (.text p.1, p.2)) (function.map .text)
    (stack.map .text)

section
variable {which : EventKind} {description : StrPtr} {functype : Option UInt32}
  {file : Option (StrPtr × Option UInt32)} {function stack : Option StrPtr}

theorem description_built :
    (built which description functype file function stack).description = description := by
  rcases functype with _ | ft <;> rcases file with _ | ⟨f, _ | l⟩ <;>
    rcases function with _ | fn <;> rcases stack with _ | st <;> rfl

theorem filename_built : (built which description functype file function stack).filename =
    (file.map Prod.fst).getD .null := by
  rcases functype with _ | ft <;> rcases file with _ | ⟨f, _ | l⟩ <;>
    rcases function with _ | fn <;> rcases stack with _ | st <;> rfl

theorem function_built : (built which description functype file function stack).function =
    .str ((stack <|> function).getD .null) := by
  rcases functype with _ | ft <;> rcases file with _ | ⟨f, _ | l⟩ <;>
    rcases function with _ | fn <;> rcases stack with _ | st <;> rfl

/-- The same event with other strings where it has some. -/
theorem built_with {f fn : StrPtr} (hfile : file = none → f = .null)
    (hfunction : (stack <|> function) = none → fn = .null) :
    { built which description functype file function stack with
      filename := f, function := .str fn } =
      built which description functype (file.map fun p => (f, p.2)) (function.map fun _ => fn)
        (stack.map fun _ => fn) := by
  rcases functype with _ | ft <;> rcases file with _ | ⟨f', _ | l⟩ <;>
    rcases function with _ | fn' <;> rcases stack with _ | st <;>
    simp_all [built, inFile, atLine, inFunction, inFunctype]

end

theorem StrPtr.Settles.exists_text {p q : StrPtr} (h : p.Settles q) (hp : p ≠ .null) :
    ∃ s, q = .text s := by
  cases h with
  | same hd =>
      cases p with
      | text s => exact ⟨s, rfl⟩
      | null => exact absurd rfl hp
      | dangling => exact absurd rfl hd
  | found s => exact ⟨s, rfl⟩

theorem StrPtr.Settles.eq_null {q : StrPtr} (h : StrPtr.null.Settles q) : q = .null := by
  cases h
  rfl

/-- What is found where the pointers of an option point, if none of them is null. -/
theorem exists_text_of_getD {p : Option StrPtr} {q : StrPtr} (hp : ∀ x ∈ p, x ≠ .null)
    (h : (p.getD .null).Settles q) : (p = none → q = .null) ∧ ∃ s : CString, p ≠ none → q = s := by
  cases p with
  | none => exact ⟨fun _ => StrPtr.Settles.eq_null h, .empty, fun hne => absurd rfl hne⟩
  | some x =>
      obtain ⟨s, rfl⟩ := StrPtr.Settles.exists_text h (hp x rfl)
      exact ⟨nofun, s, fun _ => rfl⟩

/-- **What is found where the pointers of a normalised event point** spells it out. -/
theorem settles_normalise {orig e : Event} (hdesc : orig.description ≠ .dangling)
    (h : orig.normalise.Settles e) : ∃ description functype file function stack,
      e = spelled orig.which description functype file function stack := by
  obtain ⟨functype, file, function, stack, hbuilt, hfile, hfunction, hstack⟩ :=
    orig.normalise_eq_built
  obtain ⟨description, hdescription⟩ : ∃ s : CString, xstr orig.description = s := by
    cases hd : orig.description with
    | null => exact ⟨.empty, rfl⟩
    | text s => exact ⟨s, rfl⟩
    | dangling => exact absurd hd hdesc
  rw [hbuilt, hdescription] at h
  obtain ⟨hf, hfn⟩ := h
  rw [filename_built] at hf
  rw [functionText, function_built] at hfn
  obtain ⟨hnofile, f, hf⟩ := exists_text_of_getD (by simpa using fun p l hp => hfile _ hp) hf
  obtain ⟨hnofn, fn, hfn⟩ := exists_text_of_getD (fun x hx => by
    rcases stack with _ | st
    · exact hfunction x hx
    · exact hstack x hx) hfn
  rw [Option.map_eq_none_iff] at hnofile
  rw [built_with hnofile hnofn]
  refine ⟨description, functype, file.map fun p => (f, p.2), function.map fun _ => fn,
    stack.map fun _ => fn, ?_⟩
  rw [spelled, Option.map_map, Option.map_map, Option.map_map]
  rcases file with _ | p <;> rcases function with _ | p' <;> rcases stack with _ | p'' <;>
    simp_all

/-- A normalised event none of whose strings was destroyed is what is found. -/
theorem settles_self {orig : Event} (hfile : orig.normalise.filename ≠ .dangling)
    (hfunction : orig.normalise.functionText ≠ .dangling) :
    orig.normalise.Settles orig.normalise := by
  have hsame := Settles.mk (.same hfile) (.same hfunction)
  obtain ⟨functype, file, function, stack, hbuilt, -⟩ := orig.normalise_eq_built
  have hstr : .str orig.normalise.functionText = orig.normalise.function := by
    rw [functionText, hbuilt, function_built]
  rwa [hstr] at hsame

/-- It is the same on the other side of a pipe. -/
theorem spelled_received (which : EventKind) (description : CString) (functype : Option UInt32)
    (file : Option (CString × Option UInt32)) (function stack : Option CString) :
    (spelled which description functype file function stack).received.normalise =
      spelled which description functype file function stack := by
  rcases functype with _ | ft <;> rcases file with _ | ⟨f, _ | l⟩ <;>
    rcases function with _ | fn <;> rcases stack with _ | st <;>
    simp +decide [spelled, built, received, normalise, normaliseLocation, hasFlag, inFile, atLine,
      inFunction, inFunctype, functionText, xstr, StrPtr.string, StrPtr.string?]

/-- An event that is sent after `raise_event` has normalised it: it names no reflected function, and
its strings fit the wire. -/
structure Sendable (e : Event) : Prop where
  not_spiegel : e.hasFlag ltSpiegelfunc = false
  description : FitsWire e.description
  filename : FitsWire e.filename
  function : FitsWire e.functionText

end Event

theorem FitsWire.ne_dangling {p : StrPtr} (h : FitsWire p) : p ≠ .dangling := by
  rintro rfl
  obtain ⟨s, hs, -⟩ := h
  cases hs

theorem FitsWire.xstr {p : StrPtr} (h : FitsWire p) : FitsWire (NovaProva.xstr p) := by
  cases p <;> exact h

theorem fitsWire_null : FitsWire .null := ⟨.empty, rfl, by decide⟩

namespace Event

/-- The strings of a normalised event are some of the event's. -/
theorem Sendable.fits_normalise {e : Event} (h : e.Sendable) :
    (Message.event e.normalise).Fits := by
  have hdesc := h.description.xstr
  have hfile := h.filename.xstr
  have hfun := h.function.xstr
  have hns : ¬ e.hasFlag ltSpiegelfunc = true := by
    rw [h.not_spiegel]
    exact Bool.false_ne_true
  simp only [normalise, if_neg hns, normaliseLocation]
  split_ifs <;> simp only [Message.Fits, inFile, inFunction, inFunctype, atLine, functionText] <;>
    exact ⟨by assumption, by first | assumption | exact fitsWire_null,
      by first | assumption | exact fitsWire_null⟩

/-- The event `normalise` makes of one that was normalised, sent and received is the one that was
sent. -/
theorem Sendable.normalise_received_normalise {e : Event} (h : e.Sendable) :
    e.normalise.received.normalise = e.normalise := by
  obtain ⟨-, hfile, hfn⟩ := h.fits_normalise
  obtain ⟨_, _, _, _, _, heq⟩ := settles_normalise h.description.ne_dangling
    (settles_self hfile.ne_dangling hfn.ne_dangling)
  rw [heq, spelled_received]

end Event

/-! ### Streams in pieces -/

theorem Pipe.handleCall_event {e : Event} (h : e.Sendable) {p : Pipe} {t : List UInt8}
    (hp : p.unread = serialiseMessage (.event e.normalise) ++ t) (resp : Result) :
    ∃ p', p.handleCall resp = (⟨true, some e.normalise, resp.merge e.getResult⟩, p') ∧
      p'.unread = t := by
  obtain ⟨p', hcall, ht⟩ := refines_call.eq_of_decodes (decodes_message h.fits_normalise) hp
  refine ⟨p', ?_, ht⟩
  rw [Pipe.handleCall, hcall]
  simp only [Message.received, h.normalise_received_normalise, Event.getResult_normalise]

theorem Pipe.handleCall_finished {r : Result} {p : Pipe} {t : List UInt8}
    (hp : p.unread = serialiseMessage (.finished r) ++ t) (resp : Result) :
    ∃ p', p.handleCall resp = (⟨false, none, resp.merge r⟩, p') ∧ p'.unread = t := by
  obtain ⟨p', hcall, ht⟩ := refines_call.eq_of_decodes
    (decodes_message (m := .finished r) trivial) hp
  refine ⟨p', ?_, ht⟩
  rw [Pipe.handleCall, hcall]
  rfl

/-- A stream of events and the end of the test is read call by call. -/
theorem Pipe.handleCalls_script {es : List Event} {r : Result} (hes : ∀ e ∈ es, e.Sendable)
    {p : Pipe} {t : List UInt8}
    (hp : p.unread = wire (script (es.map Event.normalise) r) ++ t) (resp : Result) :
    ∃ hs p', p.handleCalls (es.length + 1) resp = (hs, p') ∧ p'.unread = t ∧
      hs.map (fun h => (h.again, h.event)) =
        es.map (fun e => (true, some e.normalise)) ++ [(false, none)] := by
  induction es generalizing p resp with
  | nil =>
      have hp' : p.unread = serialiseMessage (.finished r) ++ t := by
        rw [hp]
        simp [script, wire]
      obtain ⟨p', hcall, ht⟩ := handleCall_finished hp' resp
      refine ⟨[⟨false, none, resp.merge r⟩], p', ?_, ht, rfl⟩
      rw [List.length_nil, handleCalls, hcall]
      rfl
  | cons e es ih =>
      have hp' : p.unread = serialiseMessage (.event e.normalise) ++
          (wire (script (es.map Event.normalise) r) ++ t) := by
        rw [hp, ← List.append_assoc, ← wire_cons]
        rfl
      obtain ⟨p₁, hcall, hp₁⟩ := handleCall_event (hes e List.mem_cons_self) hp' resp
      obtain ⟨hs, p', hcalls, ht, hmap⟩ := ih (fun d hd => hes d (List.mem_cons_of_mem _ hd)) hp₁
        (resp.merge e.getResult)
      refine ⟨⟨true, some e.normalise, resp.merge e.getResult⟩ :: hs, p', ?_, ht, ?_⟩
      · rw [List.length_cons, handleCalls, hcall]
        dsimp only
        rw [hcalls]
      · rw [List.map_cons, hmap]
        rfl

/-- **Events are delivered as they were raised.**  What the parent's listeners are told of an event
is what `raise_event` made of it in the child; and a stream of events and a `FINISHED` call, cut
into pieces in any way, is read as that sequence by successive calls of `handle_call`. -/
theorem handleCalls_delivers_events :
    (∀ e : Event, e.Sendable → ∀ (p : Pipe) (t : List UInt8),
      p.unread = serialiseEvent e.normalise ++ t →
      ∃ ev p', Deserialise.event Pipe.deserialiseBytes p = some (ev, p') ∧ p'.unread = t ∧
        ev.normalise = e.normalise) ∧
    (∀ (es : List Event) (r resp : Result) (p : Pipe) (t : List UInt8), (∀ e ∈ es, e.Sendable) →
      p.unread = wire (script (es.map Event.normalise) r) ++ t →
      ∃ hs p', p.handleCalls (es.length + 1) resp = (hs, p') ∧ p'.unread = t ∧
        hs.map (fun h => (h.again, h.event)) =
          es.map (fun e => (true, some e.normalise)) ++ [(false, none)]) := by
  constructor
  · intro e he p t hp
    obtain ⟨p', hread, ht⟩ := refines_event.eq_of_decodes (decodes_event he.fits_normalise) hp
    exact ⟨_, p', hread, ht, he.normalise_received_normalise⟩
  · intro es r resp p t hes hp
    exact Pipe.handleCalls_script hes hp resp

/-- An assertion that failed at a line of a file, in a pipe with pieces of five bytes. -/
def assertAt : Event :=
  Event.atLine { which := .assert, description := .text ⟨[97], by decide⟩ }
    (.text ⟨[98, 99], by decide⟩) 7

/-- The calls for a failed assertion, in pieces of five bytes. -/
def assertPipe : Pipe where
  pieces := (wire (script [assertAt.normalise] .fail)).toChunks 5
  nonempty := by decide

/-- The assertion and the end of the test are read from there. -/
theorem handleCalls_delivers_assert :
    ∃ hs p', assertPipe.handleCalls 2 .unknown = (hs, p') ∧
      hs.map (fun h => (h.again, h.event)) = [(true, some assertAt.normalise), (false, none)] := by
  have hsend : ∀ e ∈ [assertAt], e.Sendable := by
    intro e he
    obtain rfl := List.mem_singleton.mp he
    exact ⟨by decide, by decide, by decide, by decide⟩
  have hp : assertPipe.unread = wire (script ([assertAt].map Event.normalise) .fail) ++ [] := by
    decide
  obtain ⟨hs, p', hcalls, -, hmap⟩ := handleCalls_delivers_events.2 [assertAt] .fail .unknown
    assertPipe [] hsend hp
  exact ⟨hs, p', hcalls, hmap⟩

end NovaProva
