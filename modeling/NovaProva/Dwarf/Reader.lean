import NovaProva.Lib.Bytes
import NovaProva.Lib.Leb128

/-!
# Dwarf — Reader

`np/spiegel/dwarf/reader.hxx`: a reader over a buffer of bytes, with the pointers `base_`, `p_` and
`end_` of a 64-bit machine.  The bounds checks compare pointers, so `p_ + n` is taken modulo
`2 ^ 64` here as there.  Reading outside the buffer, which a wrapped `p_` can lead to, is undefined
there; here nothing is left to read.

`Reads x bs v` is what a decoder of the bytes `bs` promises, and is closed under the operations of
`Read`, so that a sequence of reads is one of the bytes it reads in turn.
-/

namespace NovaProva.Dwarf

/-- `reader_t`; `bytes` are the bytes from `base_` up to `end_`. -/
structure Reader where
  base : Nat
  bytes : List UInt8
  p : Nat
  is64 : Bool := false
  fits : base + bytes.length < 2 ^ 64
  p_lt : p < 2 ^ 64

namespace Reader

/-- `end_`, the address behind the buffer. -/
def end_ (r : Reader) : Nat := r.base + r.bytes.length

/-- The bytes from `p_` up to `end_`. -/
def rest (r : Reader) : List UInt8 := if r.base ≤ r.p then r.bytes.drop (r.p - r.base) else []

/-- `p_ = q`. -/
def setP (r : Reader) (q : Nat) : Reader :=
  { r with p := q % 2 ^ 64, p_lt := Nat.mod_lt _ (Nat.two_pow_pos 64) }

/-- What is left fits into the address space. -/
theorem length_rest_le (r : Reader) : r.p + r.rest.length < 2 ^ 64 := by
  have hf := r.fits
  have hp := r.p_lt
  unfold rest
  split
  · rw [List.length_drop]
    omega
  · exact hp

/-- The constructor: a reader at the start of a buffer. -/
def ofBuffer (base : Nat) (bytes : List UInt8) (fits : base + bytes.length < 2 ^ 64) : Reader :=
  { base := base, bytes := bytes, p := base, fits := fits, p_lt := by omega }

/-- The default constructor. -/
def null : Reader := ofBuffer 0 [] (Nat.two_pow_pos 64)

/-- `initial_subset`: the next `len` bytes, as a buffer of their own. -/
def initialSubset (r : Reader) (len : Nat) : Reader where
  base := r.p
  bytes := r.rest.take len
  p := r.p
  is64 := r.is64
  fits := by
    have h := r.length_rest_le
    have ht := List.length_take_le len r.rest
    have hl := List.length_take_le' len r.rest
    omega
  p_lt := r.p_lt

/-- `get_offset`. -/
def getOffset (r : Reader) : Nat := (r.p + (2 ^ 64 - r.base)) % 2 ^ 64

/-- `get_remains`. -/
def getRemains (r : Reader) : Nat := (r.end_ + (2 ^ 64 - r.p)) % 2 ^ 64

/-- `get_length`. -/
def getLength (r : Reader) : Nat := r.bytes.length

end Reader

/-! ### Reading -/

/-- A method of `reader_t` that returns `bool`: its output, or `none` for `false`, and the reader
it leaves. -/
def Read (α : Type) := Reader → Option α × Reader

namespace Read

variable {α β : Type}

/-- Methods joined by `&&`, or by `||` of their negations: the first that fails ends it. -/
instance : Monad Read where
  pure v := fun r => (some v, r)
  bind x f := fun r =>
    match x r with
    | (some v, r') => f v r'
    | (none, r')   => (none, r')

/-- `return false`. -/
def fail : Read α := fun r => (none, r)

/-- A method whose result is not looked at. -/
def ignore (x : Read Unit) : Read Unit := fun r => (some (), (x r).2)

/-- `seek`: to `n` bytes behind the start, if that is not behind the end. -/
def seek (n : Nat) : Read Unit := fun r =>
  if (r.base + n) % 2 ^ 64 > r.end_ then (none, r) else (some (), r.setP (r.base + n))

/-- `skip`: `n` bytes on, if that is not behind the end. -/
def skip (n : Nat) : Read Unit := fun r =>
  if (r.p + n) % 2 ^ 64 > r.end_ then (none, r) else (some (), r.setP (r.p + n))

/-- The little-endian number of `n` bytes at `p_`. -/
def readLe (n : Nat) : Read Nat := fun r =>
  if (r.p + n) % 2 ^ 64 > r.end_ then (none, r)
  else (some (Bytes.leNat (r.rest.take n)), r.setP (r.p + n))

/-- `read_u8`. -/
def readU8 : Read Nat := fun r =>
  if r.p ≥ r.end_ then (none, r)
  else (some (Bytes.leNat (r.rest.take 1)), r.setP (r.p + 1))

/-- `read_u16`. -/
def readU16 : Read Nat := readLe 2
/-- `read_u32`. -/
def readU32 : Read Nat := readLe 4
/-- `read_u64`. -/
def readU64 : Read Nat := readLe 8

/-- `skip_u8`. -/
def skipU8 : Read Unit := skip 1
/-- `skip_u16`. -/
def skipU16 : Read Unit := skip 2
/-- `skip_u32`. -/
def skipU32 : Read Unit := skip 4
/-- `skip_u64`. -/
def skipU64 : Read Unit := skip 8

/-- `_NP_ADDRSIZE`. -/
def addrsize : Nat := 8

/-- `read_addr`, for addresses of eight bytes. -/
def readAddr : Read Nat := readU64
/-- `skip_addr`. -/
def skipAddr : Read Unit := skipU64

/-- `read_offset`: eight bytes in the 64-bit format, four in the 32-bit format. -/
def readOffset : Read Nat := fun r => if r.is64 then readU64 r else readU32 r
/-- `skip_offset`. -/
def skipOffset : Read Unit := fun r => if r.is64 then skipU64 r else skipU32 r

/-- What the loop of `read_uleb128` and `read_sleb128` ends with. -/
structure LebRun where
  vv : Nat
  shift : Nat
  last : UInt8
  length : Nat

/-- The loop of `read_uleb128` and `read_sleb128` over the bytes from `pp`, with the 32-bit
accumulator `vv`.  Shifting it by 32 or more is undefined; an x86 takes the shift modulo 32. -/
def lebLoop : List UInt8 → LebRun → Option LebRun
  | [],      _ => none
  | b :: bs, s =>
      let s' : LebRun := {
        vv := s.vv ||| ((b &&& 0x7f).toNat <<< (s.shift % 32)) % 2 ^ 32
        shift := s.shift + 7
        last := b
        length := s.length + 1 }
      if b &&& 0x80 ≠ 0 then lebLoop bs s' else some s'

/-- The variables of the loop before its first byte. -/
def lebStart : LebRun := { vv := 0, shift := 0, last := 0, length := 0 }

/-- `read_uleb128`. -/
def readUleb128 : Read Nat := fun r =>
  match lebLoop r.rest lebStart with
  | none   => (none, r)
  | some s => (some s.vv, r.setP (r.p + s.length))

/-- A 32-bit word as an `int32_t`. -/
def int32 (n : Nat) : Int := if n < 2 ^ 31 then (n : Int) else n - 2 ^ 32

/-- The sign extension at the end of `read_sleb128`, from the last encoded bit. -/
def signExtend (s : LebRun) : Int :=
  if s.last &&& 0x40 ≠ 0 then int32 (s.vv ||| ((2 ^ 32 - 1) <<< (s.shift % 32)) % 2 ^ 32)
  else int32 s.vv

/-- `read_sleb128`. -/
def readSleb128 : Read Int := fun r =>
  match lebLoop r.rest lebStart with
  | none   => (none, r)
  | some s => (some (signExtend s), r.setP (r.p + s.length))

/-- The loop of `skip_uleb128` and `skip_sleb128`: how many bytes it passes. -/
def skipLebLoop : List UInt8 → Nat → Option Nat
  | [],      _ => none
  | b :: bs, n => if b &&& 0x80 ≠ 0 then skipLebLoop bs (n + 1) else some (n + 1)

/-- `skip_uleb128`. -/
def skipUleb128 : Read Unit := fun r =>
  match skipLebLoop r.rest 0 with
  | none   => (none, r)
  | some n => (some (), r.setP (r.p + n))

/-- `skip_sleb128`, the same loop. -/
def skipSleb128 : Read Unit := skipUleb128

/-- `read_string`: the bytes up to the next NUL, which `memchr` looks for. -/
def readString : Read (List UInt8) := fun r =>
  match r.rest.findIdx? (· == 0) with
  | none   => (none, r)
  | some n => (some (r.rest.take n), r.setP (r.p + n + 1))

/-- `skip_string`: to behind the next zero. -/
def skipString : Read Unit := fun r =>
  match r.rest.findIdx? (· == 0) with
  | none   => (none, r)
  | some n => (some (), r.setP (r.p + n + 1))

/-- `read_bytes`, which fails if the bytes reach up to `end_`. -/
def readBytes (len : Nat) : Read (List UInt8) := fun r =>
  if (r.p + len) % 2 ^ 64 ≥ r.end_ then (none, r)
  else (some (r.rest.take len), r.setP (r.p + len))

/-- `skip_bytes`. -/
def skipBytes (len : Nat) : Read Unit := skip len

/-- `read_initial_length`: the length and whether it is one of the 64-bit format. -/
def readInitialLength : Read (Nat × Bool) := do
  let length ← readU32
  if length = 0xffffffff then
    let length ← readU64
    return (length, true)
  else if length ≥ 0xfffffff0 then Read.fail
  else return (length, false)

/-- A read that succeeds goes on with its value. -/
theorem bind_some {x : Read α} {f : α → Read β} {r r' : Reader} {v : α}
    (h : x r = (some v, r')) : (x >>= f) r = f v r' := by
  change (match x r with | (some v, r') => f v r' | (none, r') => (none, r')) = _
  rw [h]

/-- A read that fails ends there. -/
theorem bind_none {x : Read α} {f : α → Read β} {r r' : Reader}
    (h : x r = (none, r')) : (x >>= f) r = (none, r') := by
  change (match x r with | (some v, r') => f v r' | (none, r') => (none, r')) = _
  rw [h]

/-- What comes before a read that succeeds has succeeded. -/
theorem bind_eq_some {x : Read α} {f : α → Read β} {r r' : Reader} {w : β}
    (h : (x >>= f) r = (some w, r')) : ∃ v r₁, x r = (some v, r₁) ∧ f v r₁ = (some w, r') := by
  cases hx : x r with
  | mk v? r₁ =>
      cases v? with
      | none =>
          rw [bind_none hx] at h
          cases h
      | some v =>
          rw [bind_some hx] at h
          exact ⟨v, r₁, rfl, h⟩

/-- A number of `n` bytes. -/
theorem lt_of_readLe {n v : Nat} {r r' : Reader} (h : readLe n r = (some v, r')) : v < 256 ^ n := by
  rw [readLe] at h
  split at h
  · cases h
  · cases h
    have hlen : (r.rest.take n).length ≤ n := List.length_take_le n r.rest
    exact (Bytes.leNat_lt _).trans_le (Nat.pow_le_pow_right (by omega) hlen)

end Read

/-! ### Where a reader stands -/

/-- `r` has the bytes `s` before it, up to the end of its buffer. -/
structure Reader.At (r : Reader) (s : List UInt8) : Prop where
  base_le : r.base ≤ r.p
  end_eq : r.end_ = r.p + s.length
  rest_eq : r.rest = s

namespace Reader

@[simp] theorem setP_base (r : Reader) (q : Nat) : (r.setP q).base = r.base := rfl
@[simp] theorem setP_bytes (r : Reader) (q : Nat) : (r.setP q).bytes = r.bytes := rfl
@[simp] theorem setP_is64 (r : Reader) (q : Nat) : (r.setP q).is64 = r.is64 := rfl
@[simp] theorem setP_end (r : Reader) (q : Nat) : (r.setP q).end_ = r.end_ := rfl

/-- The position, in the address space. -/
theorem setP_p (r : Reader) {q : Nat} (h : q < 2 ^ 64) : (r.setP q).p = q := Nat.mod_eq_of_lt h

/-- A reader is its buffer and its position. -/
theorem ext_p {r s : Reader} (hb : r.base = s.base) (hy : r.bytes = s.bytes) (hp : r.p = s.p)
    (hi : r.is64 = s.is64) : r = s := by
  cases r
  cases s
  cases hb
  cases hy
  cases hp
  cases hi
  rfl

theorem setP_self (r : Reader) : r.setP r.p = r :=
  ext_p rfl rfl (Nat.mod_eq_of_lt r.p_lt) rfl

/-- Two moves are one. -/
theorem setP_setP (r : Reader) (a b : Nat) :
    (r.setP a).setP ((r.setP a).p + b) = r.setP (a + b) :=
  ext_p rfl rfl (Nat.mod_add_mod a (2 ^ 64) b) rfl

theorem end_lt (r : Reader) : r.end_ < 2 ^ 64 := r.fits

/-- A new reader is at the start of its buffer. -/
theorem at_ofBuffer (base : Nat) (bytes : List UInt8) (h : base + bytes.length < 2 ^ 64) :
    (ofBuffer base bytes h).At bytes where
  base_le := Nat.le_refl _
  end_eq := rfl
  rest_eq := by simp [ofBuffer, rest]

/-- With nothing behind the bytes. -/
theorem At.append_nil {r : Reader} {s : List UInt8} (h : r.At s) : r.At (s ++ []) := by
  rwa [List.append_nil]

/-- A reader for the next bytes has them before it. -/
theorem at_initialSubset (r : Reader) (len : Nat) :
    (r.initialSubset len).At (r.rest.take len) where
  base_le := Nat.le_refl _
  end_eq := rfl
  rest_eq := by simp [initialSubset, rest]

/-- Moving over the bytes before the reader. -/
theorem At.setP {r : Reader} {bs t : List UInt8} (h : r.At (bs ++ t)) :
    (r.setP (r.p + bs.length)).At t := by
  have hend := h.end_eq
  rw [List.length_append] at hend
  have hp : (r.setP (r.p + bs.length)).p = r.p + bs.length :=
    r.setP_p (by have := r.end_lt; omega)
  have hle := h.base_le
  have hrest := h.rest_eq
  rw [rest, if_pos hle] at hrest
  refine ⟨?_, ?_, ?_⟩
  · rw [setP_base, hp]
    omega
  · rw [setP_end, hp]
    omega
  · rw [rest, setP_base, setP_bytes, hp, if_pos (by omega), Nat.sub_add_comm hle,
      ← List.drop_drop, hrest, List.drop_left]

/-- Seeking to an offset of the buffer. -/
theorem seek_eq (r : Reader) {n : Nat} (h : n ≤ r.bytes.length) :
    Read.seek n r = (some (), r.setP (r.base + n)) := by
  have hfits := r.fits
  have hmod : (r.base + n) % 2 ^ 64 = r.base + n := Nat.mod_eq_of_lt (by omega)
  rw [Read.seek, hmod, if_neg (by rw [end_]; omega)]

/-- After a `seek` the bytes from there on are left. -/
theorem at_seek (r : Reader) {n : Nat} (h : n ≤ r.bytes.length) :
    ((Read.seek n r).2).At (r.bytes.drop n) := by
  have hfits := r.fits
  rw [r.seek_eq h]
  refine ⟨?_, ?_, ?_⟩
  · rw [setP_base, r.setP_p (by omega)]
    omega
  · rw [setP_end, r.setP_p (by omega), end_, List.length_drop]
    omega
  · rw [rest, setP_base, r.setP_p (by omega), if_pos (by omega), Nat.add_sub_cancel_left,
      setP_bytes]

/-- The bytes at the front of what the reader has before it. -/
theorem At.take_rest {r : Reader} {bs t : List UInt8} (h : r.At (bs ++ t)) :
    r.rest.take bs.length = bs := by
  rw [h.rest_eq, List.take_left]

/-- Nothing wraps as long as the bytes are in the buffer. -/
theorem At.add_mod {r : Reader} {s : List UInt8} (h : r.At s) {n : Nat} (hn : n ≤ s.length) :
    (r.p + n) % 2 ^ 64 = r.p + n := by
  have hend := h.end_eq
  have hlt := r.end_lt
  exact Nat.mod_eq_of_lt (by omega)

/-- `get_remains` counts what is left. -/
theorem At.getRemains {r : Reader} {s : List UInt8} (h : r.At s) :
    r.getRemains = s.length := by
  have hend := h.end_eq
  have hlt := r.end_lt
  unfold Reader.getRemains
  omega

/-- `get_offset` counts what is behind. -/
theorem At.getOffset {r : Reader} {s : List UInt8} (h : r.At s) :
    r.getOffset = r.p - r.base := by
  have hle := h.base_le
  have hlt := r.p_lt
  unfold Reader.getOffset
  omega

end Reader

/-! ### What a read promises -/

/-- How many bytes an offset has in either format. -/
def offsetSize (is64 : Bool) : Nat := if is64 then 8 else 4

/-- In the format `is64`, `x` reads `v` from `bs` and stops behind it, if at least `k` bytes of the
buffer follow. -/
def Reads {α : Type} (is64 : Bool) (k : Nat) (x : Read α) (bs : List UInt8) (v : α) : Prop :=
  ∀ ⦃r : Reader⦄ ⦃t : List UInt8⦄, r.is64 = is64 → k ≤ t.length → r.At (bs ++ t) →
    x r = (some v, r.setP (r.p + bs.length))

namespace Reads

variable {α β : Type} {is64 : Bool} {k : Nat}

/-- A read that needs nothing behind it. -/
theorem run {x : Read α} {r : Reader} {bs t : List UInt8} {v : α} (h : Reads r.is64 0 x bs v)
    (hat : r.At (bs ++ t)) : x r = (some v, r.setP (r.p + bs.length)) :=
  h rfl (Nat.zero_le _) hat

/-- Nothing is read. -/
theorem pure (v : α) : Reads is64 k (Pure.pure v) [] v := by
  intro r t _ _ _
  exact Prod.ext rfl r.setP_self.symm

/-- One thing after the other. -/
theorem bind {x : Read α} {f : α → Read β} {bs cs : List UInt8} {v : α} {w : β}
    (hx : Reads is64 k x bs v) (hf : Reads is64 k (f v) cs w) :
    Reads is64 k (x >>= f) (bs ++ cs) w := by
  intro r t hi ht hat
  rw [List.append_assoc] at hat
  have h₁ := hx hi (ht.trans (by simp)) hat
  have h₂ := hf (r := r.setP (r.p + bs.length)) hi ht hat.setP
  rw [Read.bind_some h₁, h₂, Reader.setP_setP, List.length_append, Nat.add_assoc]

/-- A read behind which nothing more is read. -/
theorem bind_nil {x : Read α} {f : α → Read β} {bs : List UInt8} {v : α} {w : β}
    (hx : Reads is64 k x bs v) (hf : Reads is64 k (f v) [] w) : Reads is64 k (x >>= f) bs w := by
  have hb := hx.bind hf
  rwa [List.append_nil] at hb

/-- The last read of a block, which returns a function of what it read. -/
theorem map {x : Read α} {bs : List UInt8} {v : α} (f : α → β) (h : Reads is64 k x bs v) :
    Reads is64 k (do let y ← x; return f y) bs (f v) :=
  h.bind_nil (.pure (f v))

/-- Any bytes are skipped. -/
theorem skip (bs : List UInt8) : Reads is64 k (Read.skip bs.length) bs () := by
  intro r t _ _ hat
  have hend := hat.end_eq
  rw [List.length_append] at hend
  rw [Read.skip, hat.add_mod (by simp), if_neg (by omega)]

/-- A skip over bytes of which only the number matters. -/
theorem skip_of_length {n : Nat} {bs : List UInt8} (h : bs.length = n) :
    Reads is64 k (Read.skip n) bs () := h ▸ Reads.skip bs

/-- A read whose success is not looked at. -/
theorem ignore {x : Read Unit} {bs : List UInt8} (h : Reads is64 k x bs ()) :
    Reads is64 k (Read.ignore x) bs () := by
  intro r t hi ht hat
  rw [Read.ignore, h hi ht hat]

/-- A number of any size is read back. -/
theorem readLe {n v : Nat} (h : v < 256 ^ n) :
    Reads is64 k (Read.readLe n) (Bytes.leBytes n v) v := by
  intro r t _ _ hat
  have hend := hat.end_eq
  have htake := hat.take_rest
  have hmod := hat.add_mod (n := n) (by simp)
  rw [List.length_append, Bytes.length_leBytes] at hend
  rw [Bytes.length_leBytes] at htake
  rw [Read.readLe, hmod, if_neg (by omega), htake, Bytes.leNat_leBytes_of_lt h,
    Bytes.length_leBytes]

/-- `read_u16` reads a number back. -/
theorem readU16 {v : Nat} (h : v < 256 ^ 2) :
    Reads is64 k Read.readU16 (Bytes.leBytes 2 v) v := readLe h

/-- `read_u32` reads a number back. -/
theorem readU32 {v : Nat} (h : v < 256 ^ 4) :
    Reads is64 k Read.readU32 (Bytes.leBytes 4 v) v := readLe h

/-- `read_u64` reads a number back. -/
theorem readU64 {v : Nat} (h : v < 256 ^ 8) :
    Reads is64 k Read.readU64 (Bytes.leBytes 8 v) v := readLe h

/-- `read_u8` reads a number back. -/
theorem readU8 {v : Nat} (h : v < 256 ^ 1) : Reads is64 k Read.readU8 (Bytes.leBytes 1 v) v := by
  intro r t _ _ hat
  have hend := hat.end_eq
  have htake := hat.take_rest
  rw [List.length_append, Bytes.length_leBytes] at hend
  rw [Bytes.length_leBytes] at htake
  rw [Read.readU8, if_neg (by omega), htake, Bytes.leNat_leBytes_of_lt h, Bytes.length_leBytes]

/-- `read_offset` reads an offset of the format back. -/
theorem readOffset {v : Nat} (h : v < 256 ^ offsetSize is64) :
    Reads is64 k Read.readOffset (Bytes.leBytes (offsetSize is64) v) v := by
  intro r t hi ht hat
  have hread := readLe (k := k) h hi ht hat
  cases is64 with
  | false =>
      rw [Read.readOffset, hi]
      exact hread
  | true =>
      rw [Read.readOffset, hi]
      exact hread

/-- `skip_offset` skips as many bytes. -/
theorem skipOffset {bs : List UInt8} (h : bs.length = offsetSize is64) :
    Reads is64 k Read.skipOffset bs () := by
  intro r t hi ht hat
  have hskip := skip_of_length (k := k) h hi ht hat
  cases is64 with
  | false =>
      rw [Read.skipOffset, hi]
      exact hskip
  | true =>
      rw [Read.skipOffset, hi]
      exact hskip

/-- A group of seven bits above the accumulator's bits is added to it. -/
theorem or_group {vv shift : Nat} (g : Fin 128) (hv : vv < 2 ^ shift) (hs : shift < 32)
    (hg : 2 ^ shift * (g : Nat) < 2 ^ 32) :
    vv ||| ((g : Nat) <<< (shift % 32)) % 2 ^ 32 = vv + 2 ^ shift * g := by
  rw [Nat.mod_eq_of_lt hs, Nat.shiftLeft_eq, Nat.mul_comm (g : Nat), Nat.mod_eq_of_lt hg,
    Nat.or_comm, ← Nat.two_pow_add_eq_or_of_lt hv, Nat.add_comm]

/-- The ones that extend the sign are above the accumulator's bits too. -/
theorem or_ones {vv shift : Nat} (hv : vv < 2 ^ shift) (hs : shift < 32) :
    vv ||| ((2 ^ 32 - 1) <<< shift) % 2 ^ 32 = vv + (2 ^ 32 - 2 ^ shift) := by
  have hsplit : 2 ^ 32 = 2 ^ shift * 2 ^ (32 - shift) := by
    rw [← pow_add, Nat.add_sub_cancel' hs.le]
  have hones : ((2 ^ 32 - 1) <<< shift) % 2 ^ 32 = 2 ^ shift * (2 ^ (32 - shift) - 1) := by
    have hle : 1 ≤ 2 ^ shift := Nat.one_le_two_pow
    have hlt : 2 ^ shift < 2 ^ 32 := Nat.pow_lt_pow_right (by omega) hs
    have hval : (2 ^ 32 - 1) <<< shift = (2 ^ 32 - 2 ^ shift) + 2 ^ 32 * (2 ^ shift - 1) := by
      rw [Nat.shiftLeft_eq]
      omega
    rw [hval, Nat.add_mul_mod_self_left, Nat.mod_eq_of_lt (by omega), Nat.mul_sub, Nat.mul_one,
      ← hsplit]
  rw [hones, Nat.or_comm, ← Nat.two_pow_add_eq_or_of_lt hv, Nat.mul_sub, Nat.mul_one, ← hsplit,
    Nat.add_comm]

/-- The loop that skips stops behind the last byte of an encoding. -/
theorem skipLebLoop_bytes (l : Leb) (t : List UInt8) (n : Nat) :
    Read.skipLebLoop (l.bytes ++ t) n = some (n + l.length) := by
  induction l generalizing n with
  | last g =>
      simp only [Leb.bytes, List.cons_append, List.nil_append, Read.skipLebLoop]
      rw [if_neg (not_not.mpr (Leb.lastByte_and_128 g)), Leb.length]
  | more g l ih =>
      simp only [Leb.bytes, List.cons_append, Read.skipLebLoop]
      rw [if_pos (Leb.moreByte_and_128 g), ih, Leb.length]
      congr 1
      omega

/-- So an encoding is skipped, however long. -/
theorem skipUleb128 (l : Leb) : Reads is64 k Read.skipUleb128 l.bytes () := by
  intro r t _ _ hat
  rw [Read.skipUleb128, hat.rest_eq, skipLebLoop_bytes]
  simp

theorem skipSleb128 (l : Leb) : Reads is64 k Read.skipSleb128 l.bytes () := skipUleb128 l

/-- `memchr` finds the NUL behind a string. -/
theorem findIdx?_string {s : List UInt8} (hs : 0 ∉ s) (t : List UInt8) :
    (s ++ [0] ++ t).findIdx? (· == 0) = some s.length := by
  induction s with
  | nil => rfl
  | cons b s ih =>
      rw [List.mem_cons, not_or] at hs
      rw [List.cons_append, List.cons_append, List.findIdx?_cons, ih hs.2]
      simp [Ne.symm hs.1]

/-- A string is read up to its zero. -/
theorem readString {s : List UInt8} (hs : 0 ∉ s) :
    Reads is64 k Read.readString (s ++ [0]) s := by
  intro r t _ _ hat
  rw [Read.readString, hat.rest_eq, findIdx?_string hs, List.length_append, List.append_assoc,
    ← Nat.add_assoc]
  dsimp only
  rw [List.take_left]
  rfl

/-- A string is skipped up to its zero. -/
theorem skipString {s : List UInt8} (hs : 0 ∉ s) :
    Reads is64 k Read.skipString (s ++ [0]) () := by
  intro r t _ _ hat
  rw [Read.skipString, hat.rest_eq, findIdx?_string hs, List.length_append, ← Nat.add_assoc]
  rfl

/-- `read_bytes` needs a byte behind what it reads. -/
theorem readBytes (hk : 0 < k) (bs : List UInt8) :
    Reads is64 k (Read.readBytes bs.length) bs bs := by
  intro r t _ ht hat
  have hend := hat.end_eq
  rw [List.length_append] at hend
  rw [Read.readBytes, hat.add_mod (by simp), if_neg (by omega), hat.take_rest]

/-- A length in four bytes is of the 32-bit format. -/
theorem readInitialLength {n : Nat} (h : n < 0xfffffff0) :
    Reads is64 k Read.readInitialLength (Bytes.leBytes 4 n) (n, false) := by
  refine (readU32 (by omega)).bind_nil ?_
  rw [if_neg (by omega), if_neg (by omega)]
  exact .pure _

/-- A length in eight bytes, behind the escape, is of the 64-bit format. -/
theorem readInitialLength64 {n : Nat} (h : n < 256 ^ 8) :
    Reads is64 k Read.readInitialLength (Bytes.leBytes 4 0xffffffff ++ Bytes.leBytes 8 n)
      (n, true) := by
  refine (readU32 (by decide)).bind ?_
  rw [if_pos rfl]
  exact (readU64 h).map fun n => (n, true)

end Reads

/-- At the end of the buffer there is no length to read. -/
theorem Read.readInitialLength_end {r : Reader} (h : r.At []) (hend : r.end_ < 2 ^ 63) :
    Read.readInitialLength r = (none, r) := by
  have hp : r.end_ = r.p := h.end_eq
  have hread : Read.readU32 r = (none, r) := by
    rw [Read.readU32, Read.readLe, if_pos]
    omega
  rw [Read.readInitialLength, Read.bind_none hread]

/-! ### LEB128 numbers of any length -/

/-- What the loop of `read_uleb128` makes of a number. -/
def lebRead : Leb → Read.LebRun → Read.LebRun
  | .last g,   s =>
      { vv := s.vv ||| ((g : Nat) <<< (s.shift % 32)) % 2 ^ 32
        shift := s.shift + 7
        last := Leb.lastByte g
        length := s.length + 1 }
  | .more g l, s =>
      lebRead l
        { vv := s.vv ||| ((g : Nat) <<< (s.shift % 32)) % 2 ^ 32
          shift := s.shift + 7
          last := Leb.moreByte g
          length := s.length + 1 }

/-- The loop stops behind the last byte of an encoding. -/
theorem lebLoop_append (l : Leb) (t : List UInt8) (s : Read.LebRun) :
    Read.lebLoop (l.bytes ++ t) s = some (lebRead l s) := by
  induction l generalizing s with
  | last g =>
      simp only [Leb.bytes, List.cons_append, List.nil_append, Read.lebLoop,
        Leb.lastByte_and_127, Leb.lastByte_and_128, ne_eq, not_true_eq_false, if_false]
      rfl
  | more g l ih =>
      simp only [Leb.bytes, List.cons_append, Read.lebLoop, Leb.moreByte_and_127]
      rw [if_pos (Leb.moreByte_and_128 g), ih]
      rfl

/-- The loop counts the bytes. -/
theorem length_lebRead (l : Leb) (s : Read.LebRun) :
    (lebRead l s).length = s.length + l.length := by
  induction l generalizing s with
  | last g => rfl
  | more g l ih =>
      rw [lebRead, ih, Leb.length]
      dsimp only
      omega

/-- The value of the loop has 32 bits. -/
theorem lebRead_vv_lt (l : Leb) (s : Read.LebRun) (h : s.vv < 2 ^ 32) :
    (lebRead l s).vv < 2 ^ 32 := by
  induction l generalizing s with
  | last g => exact Nat.or_lt_two_pow h (Nat.mod_lt _ (Nat.two_pow_pos 32))
  | more g l ih => exact ih _ (Nat.or_lt_two_pow h (Nat.mod_lt _ (Nat.two_pow_pos 32)))

/-- A group above the accumulator's bits, or one of zeros where there is no room for it. -/
theorem or_group_of_lt {vv shift : Nat} (g : Fin 128) (rest : Nat) (hv : vv < 2 ^ shift)
    (hlt : vv + 2 ^ shift * (g + 128 * rest) < 2 ^ 32) :
    vv ||| ((g : Nat) <<< (shift % 32)) % 2 ^ 32 = vv + 2 ^ shift * g := by
  rw [Nat.mul_add] at hlt
  by_cases hs : shift < 32
  · exact Reads.or_group g hv hs (by omega)
  · have hpow : 2 ^ 32 ≤ 2 ^ shift := Nat.pow_le_pow_right (by omega) (by omega)
    have hg : (g : Nat) = 0 := by
      by_contra hne
      have hle : 2 ^ shift * 1 ≤ 2 ^ shift * (g : Nat) := Nat.mul_le_mul_left _ (by omega)
      omega
    rw [hg]
    simp

/-- A number below `2 ^ 32` is read right, however long it is written. -/
theorem lebRead_vv (l : Leb) (s : Read.LebRun) (hv : s.vv < 2 ^ s.shift)
    (hlt : s.vv + 2 ^ s.shift * l.toNat < 2 ^ 32) :
    (lebRead l s).vv = s.vv + 2 ^ s.shift * l.toNat := by
  induction l generalizing s with
  | last g =>
      have hgroup := or_group_of_lt g 0 hv (by simpa [Leb.toNat] using hlt)
      exact hgroup
  | more g l ih =>
      have hgroup := or_group_of_lt g l.toNat hv hlt
      rw [Leb.two_pow_mul_more] at hlt ⊢
      rw [lebRead, hgroup, ih _ (Leb.add_group_lt g hv) (by dsimp only; omega)]
      dsimp only
      omega

/-- **The value is the number** exactly if it has 32 bits. -/
theorem lebRead_eq_iff (l : Leb) :
    (lebRead l Read.lebStart).vv = l.toNat ↔ l.toNat < 2 ^ 32 := by
  constructor
  · intro heq
    rw [← heq]
    exact lebRead_vv_lt l _ (Nat.two_pow_pos 32)
  · intro hlt
    have hread := lebRead_vv l Read.lebStart Nat.one_pos (by simpa [Read.lebStart] using hlt)
    simpa [Read.lebStart] using hread

/-- `read_uleb128` returns the value of the loop, for any encoding. -/
theorem Reads.readUleb128_any {is64 : Bool} {k : Nat} (l : Leb) :
    Reads is64 k Read.readUleb128 l.bytes (lebRead l Read.lebStart).vv := by
  intro r t _ _ hat
  rw [Read.readUleb128, hat.rest_eq, lebLoop_append]
  dsimp only
  rw [length_lebRead, Leb.length_bytes]
  simp [Read.lebStart]

/-- `read_sleb128` returns its sign extension, for any encoding. -/
theorem Reads.readSleb128_any {is64 : Bool} {k : Nat} (l : Leb) :
    Reads is64 k Read.readSleb128 l.bytes (Read.signExtend (lebRead l Read.lebStart)) := by
  intro r t _ _ hat
  rw [Read.readSleb128, hat.rest_eq, lebLoop_append]
  dsimp only
  rw [length_lebRead, Leb.length_bytes]
  simp [Read.lebStart]

/-- A number below `2 ^ 32` is read, however long it is written. -/
theorem Reads.readUleb128 {is64 : Bool} {k : Nat} {l : Leb} (h : l.toNat < 2 ^ 32) :
    Reads is64 k Read.readUleb128 l.bytes l.toNat :=
  (lebRead_eq_iff l).mpr h ▸ .readUleb128_any l

/-- The shift of the loop is seven for each byte. -/
theorem shift_lebRead (l : Leb) (s : Read.LebRun) :
    (lebRead l s).shift = s.shift + 7 * l.length := by
  induction l generalizing s with
  | last g => rfl
  | more g l ih =>
      rw [lebRead, ih, Leb.length]
      dsimp only
      omega

/-- The loop keeps the last byte. -/
theorem last_lebRead (l : Leb) (s : Read.LebRun) : (lebRead l s).last = l.final := by
  induction l generalizing s with
  | last g => rfl
  | more g l ih => exact ih _

/-- Signed numbers of at most four bytes, whose sign extension shifts by at most 28, are read
right. -/
theorem signExtend_lebRead {l : Leb} (hl : l.length ≤ 4) :
    Read.signExtend (lebRead l Read.lebStart) = l.toInt := by
  have hpow : 128 ^ l.length ≤ 128 ^ 4 := Nat.pow_le_pow_right (by omega) hl
  have hnat := l.toNat_lt
  have hvv := (lebRead_eq_iff l).mpr (by omega)
  have hshift : (lebRead l Read.lebStart).shift % 32 = 7 * l.length := by
    rw [shift_lebRead, Read.lebStart, Nat.zero_add, Nat.mod_eq_of_lt (by omega)]
  have hbits : 2 ^ (7 * l.length) = 128 ^ l.length := by
    rw [pow_mul]
    norm_num
  rw [l.toInt_eq, Read.signExtend, last_lebRead, hvv]
  by_cases hneg : l.isNeg = true
  · have hhalf := Leb.le_toNat_of_isNeg hneg
    rw [if_pos (l.final_and_64.mpr hneg), if_pos hneg, hshift,
      Reads.or_ones (hbits ▸ hnat) (by omega), hbits, Read.int32, if_neg (by omega)]
    omega
  · have hhalf := Leb.toNat_lt_of_not_isNeg (Bool.eq_false_iff.mpr hneg)
    rw [if_neg (mt l.final_and_64.mp hneg), if_neg hneg, Read.int32, if_pos (by omega)]
    omega

end NovaProva.Dwarf
