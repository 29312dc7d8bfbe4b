import NovaProva.Dwarf.AnyBytes

/-!
# Dwarf — Bounds checks

Any sequence of calls of a reader's methods, with any sizes.  What each of them owes is `Keeps`: it
succeeds exactly if what it is for is in the buffer, moves over just that, and does nothing where it
fails.  The checks compare pointers behind an addition that may wrap, `read_bytes` wants a byte
behind what it reads, and `read_initial_length` does not go back where it fails.

* `Call`: a call of one of the methods; `Call.run`: what it does.
* `Call.Clear`: none of the three happens.
* `along_keeps_iff`: along a sequence of calls every one keeps to what it owes exactly if each is
  clear where it is made.
-/

namespace NovaProva.Dwarf

namespace Read

/-- `read_s8`. -/
def readS8 : Read Int := fun r =>
  if r.p ≥ r.end_ then (none, r)
  else (some (UInt8.ofNat (Bytes.leNat (r.rest.take 1))).toInt8.toInt, r.setP (r.p + 1))

/-- `skip_s8`. -/
def skipS8 : Read Unit := skip 1

/-- What a caller sees of a method that it only asks whether it succeeds. -/
def outcome {α : Type} (x : Read α) (r : Reader) : Bool × Reader := ((x r).1.isSome, (x r).2)

end Read

/-! ### Calls -/

/-- A call of a method; a `size_t` is any 64-bit number. -/
inductive Call where
  | seek (n : UInt64)
  | skip (n : UInt64)
  | skipBytes (n : UInt64)
  | readBytes (n : UInt64)
  | readU8 | readS8 | readU16 | readU32 | readU64 | readAddr | readOffset
  | skipU8 | skipS8 | skipU16 | skipU32 | skipU64 | skipAddr | skipOffset
  | readUleb128 | readSleb128 | skipUleb128 | skipSleb128
  | readString | skipString
  | readInitialLength

/-- How many bytes an initial length has, by its first four; some of these are reserved. -/
def initialLengthSize (s : List UInt8) : Option Nat :=
  (prefixLe 4 s).bind fun v =>
    if v < 0xfffffff0 then some 4 else if v = 0xffffffff then some 12 else none

namespace Call

/-- Whether a call succeeds, and where it leaves the reader. -/
def run (r : Reader) : Call → Bool × Reader
  | seek n            => (Read.seek n.toNat).outcome r
  | skip n            => (Read.skip n.toNat).outcome r
  | skipBytes n       => (Read.skipBytes n.toNat).outcome r
  | readBytes n       => (Read.readBytes n.toNat).outcome r
  | readU8            => Read.readU8.outcome r
  | readS8            => Read.readS8.outcome r
  | readU16           => Read.readU16.outcome r
  | readU32           => Read.readU32.outcome r
  | readU64           => Read.readU64.outcome r
  | readAddr          => Read.readAddr.outcome r
  | readOffset        => Read.readOffset.outcome r
  | skipU8            => Read.skipU8.outcome r
  | skipS8            => Read.skipS8.outcome r
  | skipU16           => Read.skipU16.outcome r
  | skipU32           => Read.skipU32.outcome r
  | skipU64           => Read.skipU64.outcome r
  | skipAddr          => Read.skipAddr.outcome r
  | skipOffset        => Read.skipOffset.outcome r
  | readUleb128       => Read.readUleb128.outcome r
  | readSleb128       => Read.readSleb128.outcome r
  | skipUleb128       => Read.skipUleb128.outcome r
  | skipSleb128       => Read.skipSleb128.outcome r
  | readString        => Read.readString.outcome r
  | skipString        => Read.skipString.outcome r
  | readInitialLength => Read.readInitialLength.outcome r

/-- How many bytes a call is for; `none` where those before the reader are no number, string or
length. -/
def size (r : Reader) : Call → Option Nat
  | seek _ => none
  | skip n | skipBytes n | readBytes n => some n.toNat
  | readU8 | readS8 | skipU8 | skipS8 => some 1
  | readU16 | skipU16 => some 2
  | readU32 | skipU32 => some 4
  | readU64 | skipU64 => some 8
  | readAddr | skipAddr => some Read.addrsize
  | readOffset | skipOffset => some (offsetSize r.is64)
  | readUleb128 | readSleb128 | skipUleb128 | skipSleb128 =>
      (r.rest.findIdx? (· < 0x80)).map (· + 1)
  | readString | skipString => (r.rest.findIdx? (· == 0)).map (· + 1)
  | readInitialLength => initialLengthSize r.rest

/-- What a call is for is in the buffer. -/
def Fits (r : Reader) : Call → Prop
  | seek n => n.toNat ≤ r.getLength
  | c      => ∃ n ∈ c.size r, n ≤ r.getRemains

/-- The offset at which a call that succeeds is to leave the reader. -/
def target (r : Reader) : Call → Option Nat
  | seek n => some n.toNat
  | c      => (c.size r).map (r.getOffset + ·)

end Call

/-- The position is in the buffer, or at its end. -/
structure Reader.Within (r : Reader) : Prop where
  base_le : r.base ≤ r.p
  le_end : r.p ≤ r.end_

/-- What a call owes its caller. -/
structure Call.Keeps (c : Call) (r : Reader) : Prop where
  within : (c.run r).2.Within
  buffer : (c.run r).2.base = r.base ∧ (c.run r).2.bytes = r.bytes ∧ (c.run r).2.is64 = r.is64
  succeeds : (c.run r).1 = true ↔ c.Fits r
  moves : (c.run r).1 = true → ∃ q ∈ c.target r, (c.run r).2.getOffset = q
  stays : (c.run r).1 = false → (c.run r).2.getOffset = r.getOffset

/-- The bound of a call does not wrap, a `read_bytes` is not for all the bytes that remain, and an
initial length of which there are four bytes is there as a whole, and not a reserved one. -/
def Call.Clear (r : Reader) : Call → Prop
  | seek n => r.base + n.toNat < 2 ^ 64
  | readBytes n => r.p + n.toNat < 2 ^ 64 ∧ n.toNat ≠ r.getRemains
  | readInitialLength => r.p + 4 < 2 ^ 64 ∧
      (4 ≤ r.getRemains → ∃ n ∈ initialLengthSize r.rest, n ≤ r.getRemains)
  | readU8 | readS8 => True
  | c => ∀ n ∈ c.size r, r.p + n < 2 ^ 64

/-- Every call of a sequence satisfies `P` where those before it leave the reader. -/
def Along (P : Call → Reader → Prop) : List Call → Reader → Prop
  | [],      _ => True
  | c :: cs, r => P c r ∧ Along P cs (c.run r).2

/-! ### Readers in their buffers -/

namespace Reader.Within

variable {r : Reader}

/-- A reader within its buffer is at what is left. -/
theorem at_rest (h : r.Within) : r.At r.rest where
  base_le := h.base_le
  end_eq := by
    have hb := h.base_le
    have he := h.le_end
    rw [end_] at he
    rw [rest, if_pos hb, List.length_drop, end_]
    omega
  rest_eq := rfl

/-- `get_remains`, without wrap-around. -/
theorem getRemains (h : r.Within) : r.p + r.getRemains = r.end_ := by
  rw [h.at_rest.getRemains, h.at_rest.end_eq]

/-- `get_offset`, without wrap-around. -/
theorem getOffset (h : r.Within) : r.base + r.getOffset = r.p := by
  rw [h.at_rest.getOffset]
  exact Nat.add_sub_of_le h.base_le

/-- `get_length`, without wrap-around. -/
theorem getLength (r : Reader) : r.base + r.getLength = r.end_ := rfl

theorem length_rest (h : r.Within) : r.rest.length = r.getRemains := h.at_rest.getRemains.symm

/-- Moved to a place in the buffer. -/
theorem setP {q : Nat} (hlo : r.base ≤ q) (hhi : q ≤ r.end_) :
    (r.setP q).Within ∧ (r.setP q).getOffset = q - r.base := by
  have hp : (r.setP q).p = q := r.setP_p (hhi.trans_lt r.end_lt)
  have hw : (r.setP q).Within := ⟨by rwa [hp], by rwa [hp]⟩
  have hoffset := hw.getOffset
  rw [hp, setP_base] at hoffset
  exact ⟨hw, by omega⟩

end Reader.Within

/-! ### One call -/

namespace Call

variable {r : Reader} {c : Call}

/-- A call of which the bytes are there moves over them. -/
theorem keeps_of_moved {q : Nat} (hlo : r.base ≤ q) (hhi : q ≤ r.end_)
    (hrun : c.run r = (true, r.setP q)) (hfits : c.Fits r)
    (htarget : c.target r = some (q - r.base)) : c.Keeps r := by
  obtain ⟨hwithin, hoffset⟩ := Reader.Within.setP hlo hhi
  constructor
  · rw [hrun]
    exact hwithin
  · rw [hrun]
    exact ⟨rfl, rfl, rfl⟩
  · rw [hrun]
    exact iff_of_true rfl hfits
  · intro _
    rw [hrun, htarget]
    exact ⟨_, rfl, hoffset⟩
  · intro hfail
    rw [hrun] at hfail
    cases hfail

/-- A call of which the bytes are not there does nothing. -/
theorem keeps_of_failed (h : r.Within) (hrun : c.run r = (false, r)) (hfits : ¬ c.Fits r) :
    c.Keeps r := by
  constructor
  · rw [hrun]
    exact h
  · rw [hrun]
    exact ⟨rfl, rfl, rfl⟩
  · rw [hrun]
    exact iff_of_false Bool.false_ne_true hfits
  · intro hok
    rw [hrun] at hok
    cases hok
  · intro _
    rw [hrun]

/-- The check of `seek` and `skip`, from the pointer `q`: where it wraps it lets everything
through. -/
def compare (q n : Nat) (r : Reader) : Bool × Reader :=
  if (q + n) % 2 ^ 64 > r.end_ then (false, r) else (true, r.setP (q + n))

/-- A call that compares a sum with the end keeps within the buffer, unless the sum wraps around. -/
theorem keeps_compare_iff (h : r.Within) {q n : Nat} (hlo : r.base ≤ q) (hhi : q ≤ r.end_)
    (hn : n < 2 ^ 64) (hrun : c.run r = compare q n r) (hfits : c.Fits r ↔ q + n ≤ r.end_)
    (htarget : c.target r = some (q + n - r.base)) : c.Keeps r ↔ q + n < 2 ^ 64 := by
  have hend := r.end_lt
  rw [compare] at hrun
  by_cases hwrap : q + n < 2 ^ 64
  · refine iff_of_true ?_ hwrap
    rw [Nat.mod_eq_of_lt hwrap] at hrun
    by_cases hle : q + n ≤ r.end_
    · rw [if_neg (Nat.not_lt.mpr hle)] at hrun
      exact keeps_of_moved (by omega) hle hrun (hfits.mpr hle) htarget
    · rw [if_pos (Nat.lt_of_not_le hle)] at hrun
      exact keeps_of_failed h hrun (mt hfits.mp hle)
  · refine iff_of_false (fun hkeeps => ?_) hwrap
    rw [if_neg (by omega)] at hrun
    have hok : (c.run r).1 = true := by rw [hrun]
    have hle := hfits.mp (hkeeps.succeeds.mp hok)
    omega

/-- The calls that move by a number of bytes, and not to a place. -/
def Moves : Call → Prop
  | seek _ => False
  | _ => True

/-- A call that moves fits if the bytes it moves over do. -/
theorem fits_iff (hc : c.Moves) {n : Nat} (hsize : c.size r = some n) (h : r.Within) :
    c.Fits r ↔ r.p + n ≤ r.end_ := by
  have hremains := h.getRemains
  have hfits : c.Fits r ↔ ∃ n ∈ c.size r, n ≤ r.getRemains := by
    cases c with
    | seek n => exact absurd hc id
    | _ => exact Iff.rfl
  rw [hfits, hsize]
  simp only [Option.mem_def, Option.some.injEq, exists_eq_left']
  omega

/-- A call that moves goes behind the bytes it moves over. -/
theorem target_eq (hc : c.Moves) {n : Nat} (hsize : c.size r = some n) (h : r.Within) :
    c.target r = some (r.p + n - r.base) := by
  have hoffset := h.getOffset
  have htarget : c.target r = (c.size r).map (r.getOffset + ·) := by
    cases c with
    | seek n => exact absurd hc id
    | _ => rfl
  rw [htarget, hsize, Option.map_some]
  congr 1
  omega

/-- The calls whose check is that of `skip`, `read_u16` and so on. -/
theorem keeps_iff_of_size (h : r.Within) (hc : c.Moves) {n : Nat} (hn : n < 2 ^ 64)
    (hsize : c.size r = some n) (hrun : c.run r = compare r.p n r) :
    c.Keeps r ↔ r.p + n < 2 ^ 64 :=
  keeps_compare_iff h h.base_le h.le_end hn hrun (fits_iff hc hsize h) (target_eq hc hsize h)

/-- The calls that go through the bytes that remain, and find the last of those they are for, or
do not. -/
theorem keeps_of_scan (h : r.Within) (hc : c.Moves) (hle : ∀ n ∈ c.size r, n ≤ r.getRemains)
    (hrun : c.run r = match c.size r with
      | none   => (false, r)
      | some n => (true, r.setP (r.p + n))) : c.Keeps r := by
  have hremains := h.getRemains
  cases hsize : c.size r with
  | none =>
      rw [hsize] at hrun
      refine keeps_of_failed h hrun ?_
      cases c with
      | seek n => exact absurd hc id
      | _ =>
          rintro ⟨n, hn, -⟩
          rw [hsize] at hn
          cases hn
  | some n =>
      rw [hsize] at hrun hle
      have hfit : r.p + n ≤ r.end_ := by
        have hn := hle n rfl
        omega
      exact keeps_of_moved (h.base_le.trans (Nat.le_add_right _ _)) hfit hrun
        ((fits_iff hc hsize h).mpr hfit) (target_eq hc hsize h)

/-! ### The methods -/

/-- `skip` compares a sum with the end. -/
theorem outcome_skip (n : Nat) (r : Reader) : (Read.skip n).outcome r = compare r.p n r := by
  rw [Read.outcome, Read.skip, compare]
  split <;> rfl

/-- A number compares a sum with the end. -/
theorem outcome_readLe (n : Nat) (r : Reader) : (Read.readLe n).outcome r = compare r.p n r := by
  rw [Read.outcome, Read.readLe, compare]
  split <;> rfl

/-- `seek` compares a sum with the end, from the start on. -/
theorem outcome_seek (n : Nat) (r : Reader) : (Read.seek n).outcome r = compare r.base n r := by
  rw [Read.outcome, Read.seek, compare]
  split <;> rfl

/-- `read_offset` compares a sum with the end. -/
theorem outcome_readOffset (r : Reader) :
    Read.readOffset.outcome r = compare r.p (offsetSize r.is64) r := by
  rw [Read.outcome, Read.Takes.readOffset_eq]
  exact outcome_readLe _ r

/-- `skip_offset` compares the same sum. -/
theorem outcome_skipOffset (r : Reader) :
    Read.skipOffset.outcome r = compare r.p (offsetSize r.is64) r := by
  rw [Read.outcome, Read.Takes.skipOffset_eq]
  exact outcome_skip _ r

/-- The high bit of a byte. -/
theorem and_128_iff : ∀ b : UInt8, b &&& 0x80 ≠ 0 ↔ ¬ b < 0x80 :=
  Bytes.forall_byte (by decide +kernel)

/-- The loops over a LEB128 number stop at the first byte without the high bit. -/
theorem skipLebLoop_eq_findIdx? (s : List UInt8) (k : Nat) :
    Read.skipLebLoop s k = (s.findIdx? (· < 0x80)).map (k + · + 1) := by
  induction s generalizing k with
  | nil => rfl
  | cons b s ih =>
      rw [Read.skipLebLoop, List.findIdx?_cons]
      by_cases hb : b < 0x80
      · rw [if_neg (by rwa [and_128_iff, not_not])]
        simp [hb]
      · rw [if_pos ((and_128_iff b).mpr hb), ih]
        simp only [hb, decide_false, Bool.false_eq_true, if_false, Option.map_map]
        congr 1
        funext n
        simp only [Function.comp_apply]
        omega

/-- What the four methods that scan a LEB128 number, and the two that scan a string, do. -/
def scan (o : Option Nat) (r : Reader) : Bool × Reader :=
  match o with
  | none   => (false, r)
  | some n => (true, r.setP (r.p + n))

/-- A LEB128 is scanned to its last byte. -/
theorem outcome_skipUleb128 (r : Reader) :
    Read.skipUleb128.outcome r = scan ((r.rest.findIdx? (· < 0x80)).map (· + 1)) r := by
  have hloop := skipLebLoop_eq_findIdx? r.rest 0
  simp only [Nat.zero_add] at hloop
  rw [Read.outcome, Read.skipUleb128, hloop]
  cases (r.rest.findIdx? (· < 0x80)).map (· + 1) with
  | none => rfl
  | some n => rfl

/-- The loop that reads stops there too. -/
theorem lebLoop_length (r : Reader) :
    (Read.lebLoop r.rest Read.lebStart).map (·.length) =
      (r.rest.findIdx? (· < 0x80)).map (· + 1) := by
  have hloop := skipLebLoop_eq_findIdx? r.rest 0
  simp only [Nat.zero_add] at hloop
  rw [← hloop]
  exact (Read.Takes.skipLebLoop_eq r.rest Read.lebStart).symm

theorem outcome_readUleb128 (r : Reader) :
    Read.readUleb128.outcome r = scan ((r.rest.findIdx? (· < 0x80)).map (· + 1)) r := by
  rw [← lebLoop_length, Read.outcome, Read.readUleb128]
  cases Read.lebLoop r.rest Read.lebStart with
  | none => rfl
  | some l => rfl

theorem outcome_readSleb128 (r : Reader) :
    Read.readSleb128.outcome r = scan ((r.rest.findIdx? (· < 0x80)).map (· + 1)) r := by
  rw [← lebLoop_length, Read.outcome, Read.readSleb128]
  cases Read.lebLoop r.rest Read.lebStart with
  | none => rfl
  | some l => rfl

/-- A string is scanned to its zero. -/
theorem outcome_readString (r : Reader) :
    Read.readString.outcome r = scan ((r.rest.findIdx? (· == 0)).map (· + 1)) r := by
  rw [Read.outcome, Read.readString]
  cases r.rest.findIdx? (· == 0) with
  | none => rfl
  | some n => rfl

theorem outcome_skipString (r : Reader) :
    Read.skipString.outcome r = scan ((r.rest.findIdx? (· == 0)).map (· + 1)) r := by
  rw [Read.outcome, Read.skipString]
  cases r.rest.findIdx? (· == 0) with
  | none => rfl
  | some n => rfl

/-- Where a byte is found, it is among those that remain. -/
theorem findIdx?_le (h : r.Within) (f : UInt8 → Bool) :
    ∀ n ∈ (r.rest.findIdx? f).map (· + 1), n ≤ r.getRemains := by
  intro n hn
  obtain ⟨i, hi, rfl⟩ := Option.mem_map.mp hn
  have hlt : i < r.rest.length := (List.findIdx?_eq_some_iff_getElem.mp hi).1
  rw [h.length_rest] at hlt
  exact hlt

/-- `read_u8` and `read_s8`, which look at `p_` and not behind it. -/
theorem keeps_of_byte (h : r.Within) (hc : c.Moves) (hsize : c.size r = some 1)
    (hrun : c.run r = if r.p ≥ r.end_ then (false, r) else (true, r.setP (r.p + 1))) :
    c.Keeps r := by
  by_cases hle : r.p ≥ r.end_
  · rw [if_pos hle] at hrun
    refine keeps_of_failed h hrun ?_
    rw [fits_iff hc hsize h]
    omega
  · rw [if_neg hle] at hrun
    have hfit : r.p + 1 ≤ r.end_ := by omega
    exact keeps_of_moved (h.base_le.trans (Nat.le_add_right _ _)) hfit hrun
      ((fits_iff hc hsize h).mpr hfit) (target_eq hc hsize h)

/-- `read_bytes`. -/
theorem keeps_readBytes_iff (h : r.Within) (n : UInt64) :
    (readBytes n).Keeps r ↔ (readBytes n).Clear r := by
  have hend := r.end_lt
  have hremains := h.getRemains
  have hn := n.toNat_lt
  have hfits := fits_iff (c := readBytes n) trivial rfl h
  have hrun : (readBytes n).run r = if (r.p + n.toNat) % 2 ^ 64 ≥ r.end_ then (false, r)
      else (true, r.setP (r.p + n.toNat)) := by
    change (Read.readBytes n.toNat).outcome r = _
    rw [Read.outcome, Read.readBytes]
    split <;> rfl
  change _ ↔ r.p + n.toNat < 2 ^ 64 ∧ n.toNat ≠ r.getRemains
  by_cases hwrap : r.p + n.toNat < 2 ^ 64
  · rw [Nat.mod_eq_of_lt hwrap] at hrun
    by_cases hlt : r.p + n.toNat < r.end_
    · rw [if_neg (Nat.not_le.mpr hlt)] at hrun
      refine iff_of_true ?_ ⟨hwrap, by omega⟩
      exact keeps_of_moved (h.base_le.trans (Nat.le_add_right _ _)) hlt.le hrun
        (hfits.mpr hlt.le) (target_eq (c := readBytes n) trivial rfl h)
    · rw [if_pos (Nat.not_lt.mp hlt)] at hrun
      by_cases hall : n.toNat = r.getRemains
      · -- all the bytes that remain: they are there, and the call fails
        refine iff_of_false (fun hkeeps => ?_) fun hclear => hclear.2 hall
        have hok := hkeeps.succeeds.mpr (hfits.mpr (by omega))
        rw [hrun] at hok
        cases hok
      · exact iff_of_true (keeps_of_failed h hrun (by rw [hfits]; omega)) ⟨hwrap, hall⟩
  · rw [if_neg (by omega)] at hrun
    refine iff_of_false (fun hkeeps => ?_) fun hclear => hwrap hclear.1
    have hok : ((readBytes n).run r).1 = true := by rw [hrun]
    have hle := hfits.mp (hkeeps.succeeds.mp hok)
    omega

/-! ### Initial lengths -/

/-- A number is read if all its bytes are left. -/
theorem readLe_of_le (h : r.Within) {n : Nat} (hn : n ≤ r.getRemains) :
    Read.readLe n r = (some (Bytes.leNat (r.rest.take n)), r.setP (r.p + n)) := by
  have hremains := h.getRemains
  have hend := r.end_lt
  rw [Read.readLe, Nat.mod_eq_of_lt (by omega), if_neg (by omega)]

/-- A number is not read if some are missing. -/
theorem readLe_of_lt (h : r.Within) {n : Nat} (hn : r.getRemains < n)
    (hwrap : r.p + n < 2 ^ 64) : Read.readLe n r = (none, r) := by
  have hremains := h.getRemains
  rw [Read.readLe, Nat.mod_eq_of_lt hwrap, if_pos (by omega)]

/-- A number is read from behind the end of the buffer. -/
theorem readLe_of_wrap (h : r.Within) {n : Nat} (hn : n < 2 ^ 64) (hwrap : 2 ^ 64 ≤ r.p + n) :
    Read.readLe n r = (some (Bytes.leNat (r.rest.take n)), r.setP (r.p + n)) := by
  have hend := r.end_lt
  have hle := h.le_end
  rw [Read.readLe, if_neg (by omega)]

/-- A number is as small as what is left. -/
theorem leNat_rest_lt (h : r.Within) (n : Nat) : Bytes.leNat (r.rest.take n) < 256 ^ r.getRemains :=
  (Bytes.leNat_lt _).trans_le (Nat.pow_le_pow_right (by omega)
    (by rw [← h.length_rest]; exact List.length_take_le' n r.rest))

/-- What `read_initial_length` does behind its first four bytes. -/
theorem outcome_readInitialLength {v : Nat} {r₁ : Reader} (hread : Read.readU32 r = (some v, r₁)) :
    Read.readInitialLength.outcome r =
      if v = 0xffffffff then Read.readU64.outcome r₁ else (decide (v < 0xfffffff0), r₁) := by
  rw [Read.outcome, Read.readInitialLength, Read.bind_some hread]
  by_cases hescape : v = 0xffffffff
  · rw [if_pos hescape, if_pos hescape, Read.outcome]
    cases h64 : Read.readU64 r₁ with
    | mk o r₂ =>
        cases o with
        | none =>
            rw [Read.bind_none h64]
            rfl
        | some w =>
            rw [Read.bind_some h64]
            rfl
  · rw [if_neg hescape, if_neg hescape]
    by_cases hreserved : v ≥ 0xfffffff0
    · rw [if_pos hreserved, decide_eq_false (Nat.not_lt.mpr hreserved)]
      rfl
    · rw [if_neg hreserved, decide_eq_true (Nat.lt_of_not_le hreserved)]
      rfl

/-- A call that moves and fails does not keep to what it owes. -/
theorem not_keeps_of_moved (h : r.Within) {q : Nat} (hlo : r.p < q) (hhi : q ≤ r.end_)
    (hrun : c.run r = (false, r.setP q)) : ¬ c.Keeps r := by
  intro hkeeps
  have hstays := hkeeps.stays (by rw [hrun])
  have hbase := h.base_le
  have hoffset := h.getOffset
  rw [hrun, (Reader.Within.setP (by omega) hhi).2] at hstays
  omega

/-- A call that succeeds without the bytes it is for does not either. -/
theorem not_keeps_of_not_fits (hrun : (c.run r).1 = true) (hfits : ¬ c.Fits r) : ¬ c.Keeps r :=
  fun hkeeps => hfits (hkeeps.succeeds.mp hrun)

/-- The number in the first four bytes, where they are there. -/
def firstWord (r : Reader) : Nat := Bytes.leNat (r.rest.take 4)

/-- The first four bytes say how long a length is. -/
theorem initialLengthSize_of_le (h : r.Within) (hle : 4 ≤ r.getRemains) :
    initialLengthSize r.rest =
      if firstWord r < 0xfffffff0 then some 4
      else if firstWord r = 0xffffffff then some 12 else none := by
  rw [initialLengthSize, prefixLe, if_pos (by rwa [h.length_rest])]
  rfl

/-- Without four bytes there is no length. -/
theorem initialLengthSize_of_lt (h : r.Within) (hlt : r.getRemains < 4) :
    initialLengthSize r.rest = none := by
  rw [initialLengthSize, prefixLe, if_neg (by rw [h.length_rest]; omega)]
  rfl

/-- The length of the 64-bit format, behind its escape. -/
theorem keeps_escape_iff (h : r.Within) (hle : 4 ≤ r.getRemains) (hsize : readInitialLength.size r =
    some 12) (hrun : readInitialLength.run r = Read.readU64.outcome (r.setP (r.p + 4))) :
    readInitialLength.Keeps r ↔ 12 ≤ r.getRemains := by
  have hremains := h.getRemains
  have hbase := h.base_le
  have hend := r.end_lt
  have hfits := fits_iff (c := readInitialLength) trivial hsize h
  obtain ⟨hwithin, -⟩ := Reader.Within.setP (r := r) (q := r.p + 4) (by omega) (by omega)
  have hp : (r.setP (r.p + 4)).p = r.p + 4 := r.setP_p (by omega)
  have hset : (r.setP (r.p + 4)).setP (r.p + 4 + 8) = r.setP (r.p + 12) := rfl
  have hcompare : Read.readU64.outcome (r.setP (r.p + 4)) =
      compare (r.p + 4) 8 (r.setP (r.p + 4)) := by
    have hout := outcome_readLe 8 (r.setP (r.p + 4))
    rwa [hp] at hout
  rw [hcompare, compare, Reader.setP_end, hset] at hrun
  by_cases htwelve : 12 ≤ r.getRemains
  · rw [Nat.mod_eq_of_lt (by omega), if_neg (by omega)] at hrun
    refine iff_of_true ?_ htwelve
    exact keeps_of_moved (by omega) (by omega) hrun (hfits.mpr (by omega))
      (target_eq (c := readInitialLength) trivial hsize h)
  · refine iff_of_false ?_ htwelve
    by_cases hwrap : r.p + 4 + 8 < 2 ^ 64
    · -- the escape is read and the length is not there
      rw [Nat.mod_eq_of_lt hwrap, if_pos (by omega)] at hrun
      exact not_keeps_of_moved h (by omega) (by omega) hrun
    · rw [if_neg (by omega)] at hrun
      exact not_keeps_of_not_fits (by rw [hrun]) (by rw [hfits]; omega)

/-- `read_initial_length`. -/
theorem keeps_readInitialLength_iff (h : r.Within) :
    readInitialLength.Keeps r ↔ readInitialLength.Clear r := by
  have hremains := h.getRemains
  have hbase := h.base_le
  have hend := r.end_lt
  change _ ↔ r.p + 4 < 2 ^ 64 ∧
    (4 ≤ r.getRemains → ∃ n ∈ initialLengthSize r.rest, n ≤ r.getRemains)
  by_cases hfour : 4 ≤ r.getRemains
  · have hrun := outcome_readInitialLength (readLe_of_le h hfour)
    have hsize := initialLengthSize_of_le h hfour
    rw [← firstWord] at hrun
    by_cases hshort : firstWord r < 0xfffffff0
    · rw [if_neg (by omega), decide_eq_true hshort] at hrun
      rw [if_pos hshort] at hsize
      refine iff_of_true ?_ ⟨by omega, fun _ => ⟨4, hsize, hfour⟩⟩
      exact keeps_of_moved (by omega) (by omega) hrun
        ((fits_iff (c := readInitialLength) trivial hsize h).mpr (by omega))
        (target_eq (c := readInitialLength) trivial hsize h)
    · rw [if_neg hshort] at hsize
      by_cases hescape : firstWord r = 0xffffffff
      · rw [if_pos hescape] at hrun hsize
        rw [keeps_escape_iff h hfour hsize hrun, hsize]
        simp only [Option.mem_def, Option.some.injEq, exists_eq_left']
        omega
      · rw [if_neg hescape, decide_eq_false hshort] at hrun
        rw [if_neg hescape] at hsize
        refine iff_of_false (not_keeps_of_moved h (by omega) (by omega) hrun) ?_
        rintro ⟨-, hclear⟩
        obtain ⟨n, hn, -⟩ := hclear hfour
        rw [hsize] at hn
        cases hn
  · have hlt := Nat.lt_of_not_le hfour
    have hsize := initialLengthSize_of_lt h hlt
    have hfits : ¬ readInitialLength.Fits r := by
      rintro ⟨n, hn, -⟩
      have hnone : n ∈ initialLengthSize r.rest := hn
      rw [hsize] at hnone
      cases hnone
    by_cases hwrap : r.p + 4 < 2 ^ 64
    · have hread : Read.readU32 r = (none, r) := readLe_of_lt h hlt hwrap
      refine iff_of_true (keeps_of_failed h ?_ hfits) ⟨hwrap, fun hle => absurd hle hfour⟩
      change Read.readInitialLength.outcome r = _
      rw [Read.outcome, Read.readInitialLength, Read.bind_none hread]
      rfl
    · -- the four bytes are read from behind the buffer, and are no escape
      refine iff_of_false (not_keeps_of_not_fits ?_ hfits) fun hclear => hwrap hclear.1
      have hrun := outcome_readInitialLength
        (readLe_of_wrap h (by decide : 4 < 2 ^ 64) (Nat.not_lt.mp hwrap))
      have hword : Bytes.leNat (r.rest.take 4) < 256 ^ 3 :=
        (leNat_rest_lt h 4).trans_le (Nat.pow_le_pow_right (by omega) (by omega))
      change (Read.readInitialLength.outcome r).1 = true
      rw [hrun, if_neg (by omega)]
      exact decide_eq_true (by omega)

/-! ### Every call -/

/-- The calls whose check is that of `skip`. -/
theorem keeps_iff_clear_of_size (h : r.Within) (hc : c.Moves) {n : Nat} (hn : n < 2 ^ 64)
    (hsize : c.size r = some n) (hrun : c.run r = compare r.p n r)
    (hclear : c.Clear r ↔ ∀ n ∈ c.size r, r.p + n < 2 ^ 64) : c.Keeps r ↔ c.Clear r := by
  rw [keeps_iff_of_size h hc hn hsize hrun, hclear, hsize]
  simp

/-- The calls that scan the bytes that remain cannot leave them. -/
theorem keeps_iff_clear_of_scan (h : r.Within) (hc : c.Moves) {f : UInt8 → Bool}
    (hsize : c.size r = (r.rest.findIdx? f).map (· + 1)) (hrun : c.run r = scan (c.size r) r)
    (hclear : c.Clear r ↔ ∀ n ∈ c.size r, r.p + n < 2 ^ 64) : c.Keeps r ↔ c.Clear r := by
  have hremains := h.getRemains
  have hend := r.end_lt
  have hle : ∀ n ∈ c.size r, n ≤ r.getRemains := by
    rw [hsize]
    exact findIdx?_le h f
  refine iff_of_true (keeps_of_scan h hc hle hrun) (hclear.mpr fun n hn => ?_)
  have hn' := hle n hn
  omega

theorem offsetSize_lt (is64 : Bool) : offsetSize is64 < 2 ^ 64 := by
  cases is64 with
  | false => decide
  | true => decide

/-- **One call** keeps to what it owes exactly if it is clear. -/
theorem keeps_iff_clear (h : r.Within) (c : Call) : c.Keeps r ↔ c.Clear r := by
  cases c with
  | seek n =>
      have hlength := Reader.Within.getLength r
      refine keeps_compare_iff h (Nat.le_refl _) (h.base_le.trans h.le_end) n.toNat_lt
        (outcome_seek _ r) ?_ ?_
      · change n.toNat ≤ r.getLength ↔ _
        omega
      · rw [Nat.add_sub_cancel_left]
        rfl
  | readBytes n => exact keeps_readBytes_iff h n
  | readInitialLength => exact keeps_readInitialLength_iff h
  | readU8 =>
      refine iff_of_true (keeps_of_byte h trivial rfl ?_) trivial
      change Read.readU8.outcome r = _
      rw [Read.outcome, Read.readU8]
      split <;> rfl
  | readS8 =>
      refine iff_of_true (keeps_of_byte h trivial rfl ?_) trivial
      change Read.readS8.outcome r = _
      rw [Read.outcome, Read.readS8]
      split <;> rfl
  | skip n | skipBytes n =>
      exact keeps_iff_clear_of_size h trivial n.toNat_lt rfl (outcome_skip _ r) Iff.rfl
  | readU16 | readU32 | readU64 | readAddr =>
      exact keeps_iff_clear_of_size h trivial (by decide) rfl (outcome_readLe _ r) Iff.rfl
  | skipU8 | skipS8 | skipU16 | skipU32 | skipU64 | skipAddr =>
      exact keeps_iff_clear_of_size h trivial (by decide) rfl (outcome_skip _ r) Iff.rfl
  | readOffset =>
      exact keeps_iff_clear_of_size h trivial (offsetSize_lt _) rfl (outcome_readOffset r) Iff.rfl
  | skipOffset =>
      exact keeps_iff_clear_of_size h trivial (offsetSize_lt _) rfl (outcome_skipOffset r) Iff.rfl
  | readUleb128 => exact keeps_iff_clear_of_scan h trivial rfl (outcome_readUleb128 r) Iff.rfl
  | readSleb128 => exact keeps_iff_clear_of_scan h trivial rfl (outcome_readSleb128 r) Iff.rfl
  | skipUleb128 | skipSleb128 =>
      exact keeps_iff_clear_of_scan h trivial rfl (outcome_skipUleb128 r) Iff.rfl
  | readString => exact keeps_iff_clear_of_scan h trivial rfl (outcome_readString r) Iff.rfl
  | skipString => exact keeps_iff_clear_of_scan h trivial rfl (outcome_skipString r) Iff.rfl

end Call

/-- **Any sequence of calls.**  From a position in the buffer, every call keeps to what it owes,
and so leaves the position in the buffer, exactly if every one is clear where it is made. -/
theorem along_keeps_iff (r : Reader) (h : r.Within) (cs : List Call) :
    Along Call.Keeps cs r ↔ Along (fun c r => c.Clear r) cs r := by
  induction cs generalizing r with
  | nil => exact Iff.rfl
  | cons c cs ih =>
      have hone := Call.keeps_iff_clear h c
      constructor
      · rintro ⟨hkeeps, hrest⟩
        exact ⟨hone.mp hkeeps, (ih _ hkeeps.within).mp hrest⟩
      · rintro ⟨hclear, hrest⟩
        have hkeeps := hone.mpr hclear
        exact ⟨hkeeps, (ih _ hkeeps.within).mpr hrest⟩

/-- Four bytes at 4096. -/
def fourBytes : Reader := .ofBuffer 4096 [1, 2, 3, 4] (by decide)

theorem fourBytes_within : fourBytes.Within := ⟨by decide, by decide⟩

/-- Two bytes skipped, and the other two asked for at once, with one byte more. -/
theorem fourBytes_keeps :
    Along Call.Keeps [.skip 2, .readBytes 3, .readU16, .readU8] fourBytes := by
  refine (along_keeps_iff fourBytes fourBytes_within _).mpr ⟨?_, ?_, ?_, trivial, trivial⟩
  · rintro n ⟨⟩
    decide
  · exact ⟨by decide, by decide⟩
  · rintro n ⟨⟩
    decide

/-- A skip by `2 ^ 64 - 1` succeeds, and moves to the byte before the buffer. -/
theorem skip_leaves_buffer : ¬ ∀ (r : Reader), r.Within → ∀ cs, Along Call.Keeps cs r := by
  intro hall
  obtain ⟨hkeeps, -⟩ := hall fourBytes fourBytes_within [.skip (-1)]
  have hp : (Call.run fourBytes (.skip (-1))).2.p = 4095 := by decide
  have hbase := hkeeps.within.base_le
  rw [hkeeps.buffer.1, hp] at hbase
  exact absurd hbase (by decide)

end NovaProva.Dwarf
