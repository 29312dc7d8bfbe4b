import NovaProva.Core.Event
import NovaProva.Lib.Decoder

/-!
# Runner — Proxy

`np/proxy_listener.cxx`: the calls a child process makes on its listener, written to its event
pipe and read back by the parent.  The child writes `EVENT e` for each event it raises and
`FINISHED r` when its test is over; the parent reads one call at a time with `handle_call`.

The reader's `read` blocks, so a call that is only partly written yet is `none` here, and so is
one that the end of the stream cuts short; `handleCall` is told which of the two it is.
-/

namespace NovaProva

/-! ### Writing -/

/-- `serialise_uint`. -/
def serialiseUint (n : Nat) : List UInt8 := Bytes.leBytes 4 n

/-- The string that is read through a pointer.  A dangling one leaves it open what that is: what is
written of an event that has one is written of an event it `Settles` as. -/
def StrPtr.string (p : StrPtr) : CString := p.string?.getD .empty

/-- `serialise_string`: a null pointer and an empty string are both the length zero alone. -/
def serialiseString (p : StrPtr) : List UInt8 :=
  let len := p.string.bytes.length % 2 ^ 32
  serialiseUint len ++ if len ≠ 0 then p.string.bytes.take len ++ [0] else []

/-- `serialise_event`.  A reflected function is never sent, `raise_event` having replaced it. -/
def serialiseEvent (e : Event) : List UInt8 :=
  serialiseUint e.which.code ++ (serialiseString e.description ++
    (serialiseUint e.locflags.toNat ++ (serialiseString e.filename ++
      (serialiseUint e.lineno.toNat ++ (serialiseString e.functionText ++
        serialiseUint e.functype.toNat)))))

/-- The event with what is found where its pointers point. -/
inductive Event.Settles : Event → Event → Prop where
  | mk {e : Event} {file fn : StrPtr} (hfile : e.filename.Settles file)
      (hfn : e.functionText.Settles fn) :
      Settles e { e with filename := file, function := .str fn }

/-- `proxy_call`. -/
def proxyEvent : Nat := 1
/-- `PROXY_FINISHED`. -/
def proxyFinished : Nat := 2

/-- What a child tells its parent through the proxy listener. -/
inductive Message where
  | event (e : Event)
  | finished (r : Result)
  deriving DecidableEq

/-- `proxy_listener_t::add_event` and `proxy_listener_t::end_job`. -/
def serialiseMessage : Message → List UInt8
  | .event e    => serialiseUint proxyEvent ++ serialiseEvent e
  | .finished r => serialiseUint proxyFinished ++ serialiseUint r.code

/-! ### Reading -/

/-- `deserialise_uint`. -/
def deserialiseUint : Decoder Nat := Decoder.le 4

/-- `deserialise_string`, which reads the terminating NUL with the string. -/
def deserialiseString : Decoder CString := do
  let len ← deserialiseUint
  if len = 0 then return .empty
  else
    let buf ← Decoder.bytes ((len + 1) % 2 ^ 32)
    return .ofBuffer buf

/-- `deserialise_event`. -/
def deserialiseEvent : Decoder Event := do
  let which ← deserialiseUint
  let description ← deserialiseString
  let locflags ← deserialiseUint
  let filename ← deserialiseString
  let lineno ← deserialiseUint
  let function ← deserialiseString
  let ft ← deserialiseUint
  return {
    which := .ofCode which
    description := description
    locflags := .ofNat locflags
    filename := filename
    lineno := .ofNat lineno
    function := .str function
    functype := .ofNat ft }

/-- One call off the event pipe, `none` for a call number that is not one. -/
def deserialiseCall : Decoder (Option Message) := do
  let which ← deserialiseUint
  if which = proxyEvent then
    let e ← deserialiseEvent
    return some (.event e)
  else if which = proxyFinished then
    let res ← deserialiseUint
    return some (.finished (.ofCode res))
  else return none

/-- What one `handle_call` did: whether it is to be called again, the event it raised, the
result it left in `*resp`, and what is still unread. -/
structure Handled where
  again : Bool
  event : Option Event
  resp : Result
  rest : List UInt8
  deriving DecidableEq

/-- `proxy_listener_t::handle_call` on the unread bytes `s`.  `eof` says that nothing more will be
written; without it a call that `s` does not complete blocks (`none`). -/
def handleCall (resp : Result) (eof : Bool) (s : List UInt8) : Option Handled :=
  match deserialiseCall s with
  | some (some (.event ev), rest) =>
      some ⟨true, some ev.normalise, resp.merge ev.normalise.getResult, rest⟩
  | some (some (.finished res), rest) => some ⟨false, none, resp.merge res, rest⟩
  -- decoding failed, so fail the test
  | some (none, rest) => some ⟨false, none, resp.merge .fail, rest⟩
  | none => if eof then some ⟨false, none, resp.merge .fail, []⟩ else none

/-! ### What is sent is what is read -/

/-- The event a reader makes of the bytes of `e`: null pointers have become empty strings. -/
def Event.received (e : Event) : Event :=
  { e with
    description := e.description.string
    filename := e.filename.string
    function := .str e.functionText.string }

/-- The message a reader makes of the bytes of a message. -/
def Message.received : Message → Message
  | .event e    => .event e.received
  | .finished r => .finished r

/-- There is a string, or a null pointer, and its length and terminator fit the 32-bit length of the
wire. -/
def FitsWire (p : StrPtr) : Prop := ∃ s ∈ p.string?, s.bytes.length < 2 ^ 32 - 1

/-- A message all of whose strings fit the wire. -/
def Message.Fits : Message → Prop
  | .event e    => FitsWire e.description ∧ FitsWire e.filename ∧ FitsWire e.functionText
  | .finished _ => True

instance (p : StrPtr) : Decidable (FitsWire p) :=
  inferInstanceAs (Decidable (∃ s ∈ p.string?, _))

instance : (m : Message) → Decidable m.Fits
  | .event _    => inferInstanceAs (Decidable (_ ∧ _ ∧ _))
  | .finished _ => inferInstanceAs (Decidable True)

theorem decodes_uint {n : Nat} (h : n < 2 ^ 32) :
    Decoder.Decodes deserialiseUint (serialiseUint n) n :=
  Decoder.Decodes.le h

theorem decodes_string {p : StrPtr} (h : FitsWire p) :
    Decoder.Decodes deserialiseString (serialiseString p) p.string := by
  have hlen : p.string.bytes.length < 2 ^ 32 - 1 := by
    obtain ⟨s, hs, hlen⟩ := h
    rwa [StrPtr.string, Option.mem_def.mp hs]
  generalize hs : p.string = s at hlen
  have hmod : s.bytes.length % 2 ^ 32 = s.bytes.length := Nat.mod_eq_of_lt (by omega)
  simp only [serialiseString, hs, hmod, List.take_length]
  by_cases h0 : s.bytes.length = 0
  · have he : s = .empty := by
      rw [CString.eq_empty_iff]
      exact List.length_eq_zero_iff.mp h0
    rw [if_neg (not_not.mpr h0), h0, he]
    exact (decodes_uint (by decide)).bind (.pure _)
  · rw [if_pos h0]
    refine (decodes_uint (by omega)).bind ?_
    have hsucc : (s.bytes.length + 1) % 2 ^ 32 = (s.bytes ++ [0]).length := by
      rw [Nat.mod_eq_of_lt (by omega), List.length_append]
      rfl
    rw [if_neg h0, hsucc]
    have hb := (Decoder.Decodes.bytes (s.bytes ++ [0])).map CString.ofBuffer
    rwa [CString.bytes_ofBuffer_terminated] at hb

theorem decodes_event {e : Event} (h : (Message.event e).Fits) :
    Decoder.Decodes deserialiseEvent (serialiseEvent e) e.received := by
  have hr : e.received = {
      which := .ofCode e.which.code
      description := e.description.string
      locflags := .ofNat e.locflags.toNat
      filename := e.filename.string
      lineno := .ofNat e.lineno.toNat
      function := .str e.functionText.string
      functype := .ofNat e.functype.toNat } := by simp [Event.received]
  rw [hr]
  refine (decodes_uint e.which.code_lt).bind ?_
  refine (decodes_string h.1).bind ?_
  refine (decodes_uint e.locflags.toNat_lt).bind ?_
  refine (decodes_string h.2.1).bind ?_
  refine (decodes_uint e.lineno.toNat_lt).bind ?_
  refine (decodes_string h.2.2).bind ?_
  exact (decodes_uint e.functype.toNat_lt).map _

/-- **A message is read back from its bytes**, whatever follows it on the pipe. -/
theorem decodes_message {m : Message} (h : m.Fits) :
    Decoder.Decodes deserialiseCall (serialiseMessage m) (some m.received) := by
  cases m with
  | event e =>
      refine (decodes_uint (by decide)).bind ?_
      rw [if_pos rfl]
      exact (decodes_event h).map _
  | finished r =>
      have he : Message.received (.finished r) = .finished (.ofCode r.code) := by
        rw [Result.ofCode_code]
        rfl
      rw [he]
      refine (decodes_uint (by decide)).bind ?_
      rw [if_neg (by decide), if_pos rfl]
      exact (decodes_uint r.code_lt).map _

theorem streaming_string : Decoder.Streaming deserialiseString := by
  refine .bind (.le 4) fun len => ?_
  split
  · exact .pure _
  · exact .bind (.bytes _) fun _ => .pure _

theorem streaming_event : Decoder.Streaming deserialiseEvent :=
  .bind (.le 4) fun _ => .bind streaming_string fun _ => .bind (.le 4) fun _ =>
    .bind streaming_string fun _ => .bind (.le 4) fun _ => .bind streaming_string fun _ =>
      .bind (.le 4) fun _ => .pure _

/-- A call that has been written completely is read the same whatever is written after it. -/
theorem streaming_call : Decoder.Streaming deserialiseCall := by
  refine .bind (.le 4) fun which => ?_
  split
  · exact .bind streaming_event fun _ => .pure _
  · split
    · exact .bind (.le 4) fun _ => .pure _
    · exact .pure _

/-! ### Streams -/

/-- What a child with the events `es` and the result `r` writes. -/
def script (es : List Event) (r : Result) : List Message := es.map .event ++ [.finished r]

/-- The bytes of a sequence of calls. -/
def wire (ms : List Message) : List UInt8 := ms.flatMap serialiseMessage

@[simp] theorem wire_append (ms ns : List Message) : wire (ms ++ ns) = wire ms ++ wire ns :=
  List.flatMap_append

theorem wire_cons (m : Message) (ms : List Message) :
    wire (m :: ms) = serialiseMessage m ++ wire ms := List.flatMap_cons

end NovaProva
