import NovaProva.Dwarf.Walker

/-!
# Dwarf — Operands among any bytes

How many bytes `read_attributes` takes and `skip_attributes` passes over for a form, whatever the
bytes are.  They part in two places.  `read_bytes` wants a byte of the unit behind a block, which
`skip_bytes` does not.  And `skip_attributes` does not look at whether the bytes of a
`DW_FORM_sec_offset` or a `DW_FORM_ref_sig8` were there, and goes on where they began.

`operand` is how many bytes an operand has by its form and the bytes there; `taken` and `passed`
are what the two make of it.
-/

namespace NovaProva.Dwarf

/-! ### Operands among any bytes -/

/-- The forms `skip_attributes` skips without a look at whether it could. -/
def Form.unchecked : Form → Bool
  | .secOffset | .refSig8 => true
  | _ => false

/-- The forms whose length is not looked at. -/
theorem Form.eq_of_unchecked {f : Form} (h : f.unchecked = true) :
    f = .secOffset ∨ f = .refSig8 := by
  cases f with
  | secOffset => exact .inl rfl
  | refSig8 => exact .inr rfl
  | _ => cases h

/-- The forms the walker can handle. -/
def Form.Supported (f : Form) : Prop := f ≠ .refUdata ∧ f ≠ .indirect

/-- The little-endian number in the first `k` bytes. -/
def prefixLe (k : Nat) (s : List UInt8) : Option Nat :=
  if k ≤ s.length then some (Bytes.leNat (s.take k)) else none

/-- How many bytes an operand has by the standard, if the bytes there tell. -/
def operandLength (cu : CompileUnit) (is64 : Bool) (f : Form) (s : List UInt8) : Option Nat :=
  match f with
  | .data1 | .flag | .ref1 => some 1
  | .data2 | .ref2 => some 2
  | .data4 | .ref4 => some 4
  | .data8 | .ref8 | .refSig8 => some 8
  | .addr => some Read.addrsize
  | .udata | .sdata => (Read.lebLoop s Read.lebStart).map (·.length)
  | .refAddr | .secOffset => some (offsetSize is64)
  | .strp => some (if cu.version = 2 then 4 else offsetSize is64)
  | .string => (s.findIdx? (· == 0)).map (· + 1)
  | .block1 => (prefixLe 1 s).map (1 + ·)
  | .block2 => (prefixLe 2 s).map (2 + ·)
  | .block4 => (prefixLe 4 s).map (4 + ·)
  | .block | .exprloc => (Read.lebLoop s Read.lebStart).map fun l => l.length + l.vv
  | .flagPresent => some 0
  | .refUdata | .indirect => none

/-- The operand at the front of `s`: how many bytes it has, `none` if it is cut off. -/
def operand (cu : CompileUnit) (is64 : Bool) (f : Form) (s : List UInt8) : Option Nat :=
  (operandLength cu is64 f s).filter (· ≤ s.length)

/-- What `skip_attributes` passes over: nothing where it does not look. -/
def passed (cu : CompileUnit) (is64 : Bool) (f : Form) (s : List UInt8) : Option Nat :=
  match operand cu is64 f s with
  | none   => if f.unchecked then some 0 else none
  | some n => some n

/-! ### What a read takes -/

/-- The bytes `x` takes of those before `r`, `none` if it fails. -/
def Read.Takes {α : Type} (x : Read α) (r : Reader) : Option Nat → Prop
  | none   => (x r).1 = none
  | some n => ∃ v, x r = (some v, r.setP (r.p + n))

/-- A reader inside its buffer, no 32-bit length beyond which leaves the address space. -/
structure Reader.Inside (r : Reader) (s : List UInt8) : Prop where
  at_ : r.At s
  room : r.end_ + 2 ^ 32 ≤ 2 ^ 64

namespace Reader.Inside

variable {r : Reader} {s : List UInt8}

/-- Inside a buffer no position wraps around. -/
theorem add_mod (h : r.Inside s) {n : Nat} (hn : n < 2 ^ 32) : (r.p + n) % 2 ^ 64 = r.p + n := by
  have hend := h.at_.end_eq
  have hroom := h.room
  exact Nat.mod_eq_of_lt (by omega)

/-- Past `n` of the bytes. -/
theorem setP (h : r.Inside s) {n : Nat} (hn : n ≤ s.length) :
    (r.setP (r.p + n)).Inside (s.drop n) := by
  have hat := h.at_
  rw [← List.take_append_drop n s] at hat
  have hset := hat.setP
  rw [List.length_take_of_le hn] at hset
  exact ⟨hset, h.room⟩

end Reader.Inside

namespace Read.Takes

variable {r : Reader} {s : List UInt8} {n : Nat}

/-- `n` bytes, if they are there. -/
def upTo (n : Nat) (s : List UInt8) : Option Nat := (some n).filter (· ≤ s.length)

theorem upTo_of_le (h : n ≤ s.length) : upTo n s = some n := by
  simp [upTo, h]

theorem upTo_of_lt (h : s.length < n) : upTo n s = none := by
  simpa [upTo] using h

/-- What is made of a value changes nothing. -/
theorem map {α β : Type} {x : Read α} (f : α → β) {m : Option Nat} (h : x.Takes r m) :
    (do let v ← x; return f v : Read β).Takes r m := by
  cases m with
  | none =>
      have hx : x r = (none, (x r).2) := Prod.ext h rfl
      exact congrArg Prod.fst (Read.bind_none hx)
  | some n =>
      obtain ⟨v, hv⟩ := h
      exact ⟨f v, Read.bind_some hv⟩

/-- Too few bytes are not skipped. -/
theorem skip_of_lt (h : r.Inside s) (hn : n < 2 ^ 32) (hlt : s.length < n) :
    Read.skip n r = (none, r) := by
  have hend := h.at_.end_eq
  rw [Read.skip, h.add_mod hn, if_pos (by omega)]

/-- `skip` takes as many bytes as it is asked for, if there are so many. -/
theorem skip (h : r.Inside s) (hn : n < 2 ^ 32) : (Read.skip n).Takes r (upTo n s) := by
  have hend := h.at_.end_eq
  by_cases hle : n ≤ s.length
  · rw [upTo_of_le hle]
    exact ⟨(), by rw [Read.skip, h.add_mod hn, if_neg (by omega)]⟩
  · rw [upTo_of_lt (by omega)]
    exact congrArg Prod.fst (skip_of_lt h hn (by omega))

theorem offsetSize_lt (is64 : Bool) : offsetSize is64 < 2 ^ 32 := by
  cases is64 with
  | false => decide
  | true => decide

theorem skipOffset_eq (r : Reader) : Read.skipOffset r = Read.skip (offsetSize r.is64) r := by
  unfold Read.skipOffset offsetSize
  cases r.is64 with
  | false => rfl
  | true => rfl

/-- `skip_offset` takes those of an offset. -/
theorem skipOffset (h : r.Inside s) : Read.skipOffset.Takes r (upTo (offsetSize r.is64) s) := by
  unfold Read.Takes
  rw [skipOffset_eq]
  exact skip h (offsetSize_lt _)

/-- What `read_u16`, `read_u32` and `read_u64` do: the bytes a skip passes over, and what they
say. -/
theorem readLe_of_le (h : r.Inside s) (hn : n < 2 ^ 32) (hle : n ≤ s.length) :
    Read.readLe n r = (some (Bytes.leNat (s.take n)), r.setP (r.p + n)) := by
  have hend := h.at_.end_eq
  rw [Read.readLe, h.add_mod hn, if_neg (by omega), h.at_.rest_eq]

/-- Too few bytes are not read. -/
theorem readLe_of_lt (h : r.Inside s) (hn : n < 2 ^ 32) (hlt : s.length < n) :
    Read.readLe n r = (none, r) := by
  have hend := h.at_.end_eq
  rw [Read.readLe, h.add_mod hn, if_pos (by omega)]

/-- A number takes its bytes. -/
theorem readLe (h : r.Inside s) (hn : n < 2 ^ 32) : (Read.readLe n).Takes r (upTo n s) := by
  by_cases hle : n ≤ s.length
  · rw [upTo_of_le hle]
    exact ⟨_, readLe_of_le h hn hle⟩
  · rw [upTo_of_lt (by omega)]
    exact congrArg Prod.fst (readLe_of_lt h hn (by omega))

/-- `read_u8`, which checks its bound in another way, to the same effect. -/
theorem readU8_eq (h : r.Inside s) : Read.readU8 r = Read.readLe 1 r := by
  have hend := h.at_.end_eq
  rw [Read.readU8, Read.readLe, h.add_mod (by omega)]
  by_cases hle : r.p ≥ r.end_
  · rw [if_pos hle, if_pos (by omega)]
  · rw [if_neg hle, if_neg (by omega)]

/-- `read_u8` takes a byte. -/
theorem readU8 (h : r.Inside s) : Read.readU8.Takes r (upTo 1 s) := by
  unfold Read.Takes
  rw [readU8_eq h]
  exact readLe h (by omega)

theorem readOffset_eq (r : Reader) : Read.readOffset r = Read.readLe (offsetSize r.is64) r := by
  unfold Read.readOffset offsetSize
  cases r.is64 with
  | false => rfl
  | true => rfl

/-- `read_offset` takes an offset of the format. -/
theorem readOffset (h : r.Inside s) : Read.readOffset.Takes r (upTo (offsetSize r.is64) s) := by
  unfold Read.Takes
  rw [readOffset_eq]
  exact readLe h (offsetSize_lt _)

/-- `read_bytes` wants a byte behind what it reads. -/
theorem readBytes (h : r.Inside s) (hn : n < 2 ^ 32) :
    (Read.readBytes n).Takes r (if n < s.length then some n else none) := by
  have hend := h.at_.end_eq
  by_cases hlt : n < s.length
  · rw [if_pos hlt]
    exact ⟨_, by rw [Read.readBytes, h.add_mod hn, if_neg (by omega)]⟩
  · rw [if_neg hlt]
    change (Read.readBytes n r).1 = none
    rw [Read.readBytes, h.add_mod hn, if_pos (by omega)]

/-! ### LEB128 numbers and strings -/

/-- Both loops stop at the same byte. -/
theorem skipLebLoop_eq (s : List UInt8) (l : Read.LebRun) :
    Read.skipLebLoop s l.length = (Read.lebLoop s l).map (·.length) := by
  induction s generalizing l with
  | nil => rfl
  | cons b bs ih =>
      rw [Read.skipLebLoop, Read.lebLoop]
      by_cases hb : b &&& 0x80 ≠ 0
      · rw [if_pos hb, if_pos hb, ← ih]
      · rw [if_neg hb, if_neg hb]
        rfl

/-- The accumulator stays a 32-bit word, and the loop stays among the bytes. -/
theorem lebLoop_spec {s : List UInt8} {l l' : Read.LebRun} (h : Read.lebLoop s l = some l')
    (hv : l.vv < 2 ^ 32) :
    l'.vv < 2 ^ 32 ∧ l'.length ≤ l.length + s.length ∧ l.length < l'.length := by
  induction s generalizing l with
  | nil => cases h
  | cons b bs ih =>
      rw [Read.lebLoop] at h
      have hor : l.vv ||| ((b &&& 0x7f).toNat <<< (l.shift % 32)) % 2 ^ 32 < 2 ^ 32 :=
        Nat.or_lt_two_pow hv (Nat.mod_lt _ (by omega))
      split at h
      · obtain ⟨h₁, h₂, h₃⟩ := ih h hor
        refine ⟨h₁, ?_, ?_⟩
        · rw [List.length_cons]
          dsimp only at h₂
          omega
        · dsimp only at h₃
          omega
      · cases h
        refine ⟨hor, ?_, ?_⟩
        · rw [List.length_cons]
          dsimp only
          omega
        · dsimp only
          omega

/-- The loop over a LEB128 reads a byte at least, and its value has 32 bits. -/
theorem lebStart_spec {l : Read.LebRun} (h : Read.lebLoop s Read.lebStart = some l) :
    l.vv < 2 ^ 32 ∧ l.length ≤ s.length ∧ 0 < l.length := by
  obtain ⟨h₁, h₂, h₃⟩ := lebLoop_spec h (Nat.two_pow_pos 32)
  exact ⟨h₁, by simpa [Read.lebStart] using h₂, h₃⟩

/-- A LEB128 number that ends is not cut off. -/
theorem filter_leb (s : List UInt8) :
    ((Read.lebLoop s Read.lebStart).map (·.length)).filter (· ≤ s.length) =
      (Read.lebLoop s Read.lebStart).map (·.length) := by
  cases h : Read.lebLoop s Read.lebStart with
  | none => rfl
  | some l => simp [(lebStart_spec h).2.1]

/-- `read_uleb128` takes the bytes of the loop. -/
theorem readUleb128 (h : r.Inside s) :
    Read.readUleb128.Takes r ((Read.lebLoop s Read.lebStart).map (·.length)) := by
  unfold Read.Takes Read.readUleb128
  rw [h.at_.rest_eq]
  cases Read.lebLoop s Read.lebStart with
  | none => rfl
  | some l => exact ⟨l.vv, rfl⟩

/-- `read_sleb128` takes the same bytes. -/
theorem readSleb128 (h : r.Inside s) :
    Read.readSleb128.Takes r ((Read.lebLoop s Read.lebStart).map (·.length)) := by
  unfold Read.Takes Read.readSleb128
  rw [h.at_.rest_eq]
  cases Read.lebLoop s Read.lebStart with
  | none => rfl
  | some l => exact ⟨Read.signExtend l, rfl⟩

/-- `skip_uleb128` takes the same bytes. -/
theorem skipUleb128 (h : r.Inside s) :
    Read.skipUleb128.Takes r ((Read.lebLoop s Read.lebStart).map (·.length)) := by
  have hskip : Read.skipLebLoop s 0 = (Read.lebLoop s Read.lebStart).map (·.length) :=
    skipLebLoop_eq s Read.lebStart
  unfold Read.Takes Read.skipUleb128
  rw [h.at_.rest_eq, hskip]
  cases Read.lebLoop s Read.lebStart with
  | none => rfl
  | some l => exact ⟨(), rfl⟩

theorem filter_string (s : List UInt8) :
    ((s.findIdx? (· == 0)).map (· + 1)).filter (· ≤ s.length) =
      (s.findIdx? (· == 0)).map (· + 1) := by
  cases h : s.findIdx? (· == 0) with
  | none => rfl
  | some n =>
      have hlt : n < s.length := (List.findIdx?_eq_some_iff_getElem.mp h).1
      simp [Nat.succ_le_of_lt hlt]

/-- `read_string` takes the string and its zero. -/
theorem readString (h : r.Inside s) :
    Read.readString.Takes r ((s.findIdx? (· == 0)).map (· + 1)) := by
  unfold Read.Takes Read.readString
  rw [h.at_.rest_eq]
  cases s.findIdx? (· == 0) with
  | none => rfl
  | some n => exact ⟨_, rfl⟩

/-- `skip_string` takes the same bytes. -/
theorem skipString (h : r.Inside s) :
    Read.skipString.Takes r ((s.findIdx? (· == 0)).map (· + 1)) := by
  unfold Read.Takes Read.skipString
  rw [h.at_.rest_eq]
  cases s.findIdx? (· == 0) with
  | none => rfl
  | some n => exact ⟨_, rfl⟩

/-! ### Blocks -/

/-- `x` reads the length of a block: from how many bytes, and how long it is. -/
def Lengths (x : Read Nat) (r : Reader) (s : List UInt8) : Option (Nat × Nat) → Prop
  | none   => (x r).1 = none
  | some q => x r = (some q.2, r.setP (r.p + q.1)) ∧ q.1 ≤ s.length ∧ q.2 < 2 ^ 32

/-- A block that is read has to end before the buffer does. -/
theorem readBlock {x : Read Nat} {m : Option (Nat × Nat)} (h : r.Inside s) (hx : Lengths x r s m) :
    (do let n ← x; let v ← Read.readBytes n; return Value.bytes v : Read Value).Takes r
      ((m.map fun q => q.1 + q.2).filter (· < s.length)) := by
  cases m with
  | none =>
      have hnone : x r = (none, (x r).2) := Prod.ext hx rfl
      exact congrArg Prod.fst (Read.bind_none hnone)
  | some q =>
      obtain ⟨hread, hle, hlt⟩ := hx
      have hbytes := (readBytes (h.setP hle) hlt).map Value.bytes
      unfold Read.Takes at hbytes ⊢
      rw [Read.bind_some hread]
      rw [List.length_drop] at hbytes
      by_cases hfit : q.1 + q.2 < s.length
      · rw [if_pos (by omega)] at hbytes
        obtain ⟨v, hv⟩ := hbytes
        simp only [Option.map_some, Option.filter_some, hfit, decide_true, if_true]
        exact ⟨v, by rw [hv, Reader.setP_setP, Nat.add_assoc]⟩
      · rw [if_neg (by omega)] at hbytes
        simp only [Option.map_some, Option.filter_some, hfit, decide_false, Bool.false_eq_true,
          if_false]
        exact hbytes

/-- A block that is skipped may end with the buffer. -/
theorem skipBlock {x : Read Nat} {m : Option (Nat × Nat)} (h : r.Inside s) (hx : Lengths x r s m) :
    (do let n ← x; Read.skipBytes n : Read Unit).Takes r
      ((m.map fun q => q.1 + q.2).filter (· ≤ s.length)) := by
  cases m with
  | none =>
      have hnone : x r = (none, (x r).2) := Prod.ext hx rfl
      exact congrArg Prod.fst (Read.bind_none hnone)
  | some q =>
      obtain ⟨hread, hle, hlt⟩ := hx
      have hskip := skip (h.setP hle) hlt
      unfold Read.Takes at hskip ⊢
      rw [Read.bind_some hread]
      by_cases hfit : q.1 + q.2 ≤ s.length
      · rw [upTo_of_le (by rw [List.length_drop]; omega)] at hskip
        obtain ⟨v, hv⟩ := hskip
        simp only [Option.map_some, Option.filter_some, hfit, decide_true, if_true]
        exact ⟨v, by rw [Read.skipBytes, hv, Reader.setP_setP, Nat.add_assoc]⟩
      · rw [upTo_of_lt (by rw [List.length_drop]; omega)] at hskip
        simp only [Option.map_some, Option.filter_some, hfit, decide_false, Bool.false_eq_true,
          if_false]
        exact hskip

/-- The length of a block, in a number. -/
theorem lengths_readLe {k : Nat} (h : r.Inside s) (hk : k ≤ 4) :
    Lengths (Read.readLe k) r s ((prefixLe k s).map fun len => (k, len)) := by
  unfold prefixLe
  by_cases hle : k ≤ s.length
  · rw [if_pos hle]
    have hlen : (s.take k).length ≤ 4 := by
      rw [List.length_take]
      omega
    have hpow : 256 ^ (s.take k).length ≤ 256 ^ 4 := Nat.pow_le_pow_right (by omega) hlen
    exact ⟨readLe_of_le h (by omega) hle, hle, (Bytes.leNat_lt (s.take k)).trans_le hpow⟩
  · rw [if_neg hle]
    exact congrArg Prod.fst (readLe_of_lt h (by omega) (by omega))

/-- The length of a block, in a byte. -/
theorem lengths_readU8 (h : r.Inside s) :
    Lengths Read.readU8 r s ((prefixLe 1 s).map fun len => (1, len)) := by
  have hle := lengths_readLe h (show 1 ≤ 4 by omega)
  unfold Lengths at hle ⊢
  rwa [readU8_eq h]

/-- The length of a block, in a LEB128. -/
theorem lengths_readUleb128 (h : r.Inside s) :
    Lengths Read.readUleb128 r s
      ((Read.lebLoop s Read.lebStart).map fun l => (l.length, l.vv)) := by
  unfold Lengths Read.readUleb128
  rw [h.at_.rest_eq]
  cases hl : Read.lebLoop s Read.lebStart with
  | none => rfl
  | some l =>
      obtain ⟨hv, hle, -⟩ := lebStart_spec hl
      exact ⟨rfl, hle, hv⟩

end Read.Takes

/-! ### Forms -/

section
variable {cu : CompileUnit} {r : Reader} {s : List UInt8} {f : Form}

/-- The bytes `read_attributes` takes: a block only with a byte behind it. -/
def taken (cu : CompileUnit) (is64 : Bool) (f : Form) (s : List UInt8) : Option Nat :=
  if f.isBlock then (operandLength cu is64 f s).filter (· < s.length) else operand cu is64 f s

/-- The operands that cannot be known before they end are not cut off. -/
theorem operand_udata (cu : CompileUnit) (s : List UInt8) (is64 : Bool) :
    operand cu is64 .udata s = (Read.lebLoop s Read.lebStart).map (·.length) :=
  Read.Takes.filter_leb s

theorem operand_string (is64 : Bool) :
    operand cu is64 .string s = (s.findIdx? (· == 0)).map (· + 1) :=
  Read.Takes.filter_string s

/-- The bytes of a `DW_FORM_block1` with its length. -/
theorem operandLength_block1 (is64 : Bool) :
    operandLength cu is64 .block1 s =
      ((prefixLe 1 s).map fun len => (1, len)).map fun q => q.1 + q.2 := by
  rw [Option.map_map]
  rfl

/-- The bytes of a `DW_FORM_block2` with its length. -/
theorem operandLength_block2 (is64 : Bool) :
    operandLength cu is64 .block2 s =
      ((prefixLe 2 s).map fun len => (2, len)).map fun q => q.1 + q.2 := by
  rw [Option.map_map]
  rfl

/-- The bytes of a `DW_FORM_block4` with its length. -/
theorem operandLength_block4 (is64 : Bool) :
    operandLength cu is64 .block4 s =
      ((prefixLe 4 s).map fun len => (4, len)).map fun q => q.1 + q.2 := by
  rw [Option.map_map]
  rfl

/-- The bytes of a `DW_FORM_block` with its length. -/
theorem operandLength_block (cu : CompileUnit) (s : List UInt8) (is64 : Bool) :
    operandLength cu is64 .block s =
      ((Read.lebLoop s Read.lebStart).map fun l => (l.length, l.vv)).map
        fun q => q.1 + q.2 := by
  rw [Option.map_map]
  rfl

/-- The offset of a `DW_FORM_strp`, in either version. -/
theorem readStrpOffset_eq (cu : CompileUnit) (r : Reader) :
    readStrpOffset cu r = Read.readLe (if cu.version = 2 then 4 else offsetSize r.is64) r := by
  unfold readStrpOffset
  split
  · rfl
  · exact Read.Takes.readOffset_eq r

theorem strpSize_lt (cu : CompileUnit) (is64 : Bool) :
    (if cu.version = 2 then 4 else offsetSize is64) < 2 ^ 32 := by
  split
  · omega
  · exact Read.Takes.offsetSize_lt is64

/-- `DW_FORM_strp` takes an offset, if there is a string there. -/
theorem readForm_strp_takes (h : r.Inside s)
    (hstrp : ∀ n, operand cu r.is64 .strp s = some n →
      ((cu.linkObject.getSection .str).offsetAsString (Bytes.leNat (s.take n))).isSome) :
    ∃ x, readForm cu .strp = some x ∧ x.Takes r (operand cu r.is64 .strp s) := by
  refine ⟨_, rfl, ?_⟩
  have hlt := strpSize_lt cu r.is64
  by_cases hle : (if cu.version = 2 then 4 else offsetSize r.is64) ≤ s.length
  · have hop : operand cu r.is64 .strp s =
        some (if cu.version = 2 then 4 else offsetSize r.is64) := Read.Takes.upTo_of_le hle
    obtain ⟨v, hv⟩ := Option.isSome_iff_exists.mp (hstrp _ hop)
    have hread := Read.Takes.readLe_of_le h hlt hle
    rw [← readStrpOffset_eq] at hread
    rw [hop]
    refine ⟨.string v, ?_⟩
    rw [Read.bind_some hread, hv]
    rfl
  · have hop : operand cu r.is64 .strp s = none := Read.Takes.upTo_of_lt (by omega)
    have hread := Read.Takes.readLe_of_lt h hlt (by omega)
    rw [← readStrpOffset_eq] at hread
    rw [hop]
    exact congrArg Prod.fst (Read.bind_none hread)

/-- **What `read_attributes` takes for a form.** -/
theorem readForm_takes (h : r.Inside s) (hf : f.Supported)
    (hstrp : f = .strp → ∀ n, operand cu r.is64 f s = some n →
      ((cu.linkObject.getSection .str).offsetAsString (Bytes.leNat (s.take n))).isSome) :
    ∃ x, readForm cu f = some x ∧ x.Takes r (taken cu r.is64 f s) := by
  cases f with
  | data1 => exact ⟨_, rfl, (Read.Takes.readU8 h).map _⟩
  | data2 => exact ⟨_, rfl, (Read.Takes.readLe h (by omega)).map _⟩
  | data4 => exact ⟨_, rfl, (Read.Takes.readLe h (by omega)).map _⟩
  | data8 => exact ⟨_, rfl, (Read.Takes.readLe h (by omega)).map _⟩
  | refSig8 => exact ⟨_, rfl, (Read.Takes.readLe h (by omega)).map _⟩
  | udata =>
      refine ⟨_, rfl, ?_⟩
      rw [taken, if_neg (by decide), operand_udata]
      exact (Read.Takes.readUleb128 h).map _
  | sdata =>
      refine ⟨_, rfl, ?_⟩
      rw [taken, if_neg (by decide)]
      exact operand_udata cu s r.is64 ▸ (Read.Takes.readSleb128 h).map _
  | addr => exact ⟨_, rfl, (Read.Takes.readLe h (by omega)).map _⟩
  | flag => exact ⟨_, rfl, (Read.Takes.readU8 h).map _⟩
  | ref1 => exact ⟨_, rfl, (Read.Takes.readU8 h).map _⟩
  | ref2 => exact ⟨_, rfl, (Read.Takes.readLe h (by omega)).map _⟩
  | ref4 => exact ⟨_, rfl, (Read.Takes.readLe h (by omega)).map _⟩
  | ref8 => exact ⟨_, rfl, (Read.Takes.readLe h (by omega)).map _⟩
  | refAddr => exact ⟨_, rfl, (Read.Takes.readOffset h).map _⟩
  | string =>
      refine ⟨_, rfl, ?_⟩
      rw [taken, if_neg (by decide), operand_string]
      exact (Read.Takes.readString h).map _
  | strp => exact readForm_strp_takes h (hstrp rfl)
  | block1 =>
      refine ⟨_, rfl, ?_⟩
      rw [taken, if_pos (by decide), operandLength_block1]
      exact Read.Takes.readBlock h (Read.Takes.lengths_readU8 h)
  | block2 =>
      refine ⟨_, rfl, ?_⟩
      rw [taken, if_pos (by decide), operandLength_block2]
      exact Read.Takes.readBlock h (Read.Takes.lengths_readLe h (by omega))
  | block4 =>
      refine ⟨_, rfl, ?_⟩
      rw [taken, if_pos (by decide), operandLength_block4]
      exact Read.Takes.readBlock h (Read.Takes.lengths_readLe h (by omega))
  | block =>
      refine ⟨_, rfl, ?_⟩
      rw [taken, if_pos (by decide), operandLength_block]
      exact Read.Takes.readBlock h (Read.Takes.lengths_readUleb128 h)
  | exprloc =>
      refine ⟨_, rfl, ?_⟩
      rw [taken, if_pos (by decide)]
      exact operandLength_block cu s r.is64 ▸
        Read.Takes.readBlock h (Read.Takes.lengths_readUleb128 h)
  | secOffset => exact ⟨_, rfl, (Read.Takes.readOffset h).map _⟩
  | flagPresent => exact ⟨_, rfl, ⟨.uint32 1, Prod.ext rfl r.setP_self.symm⟩⟩
  | refUdata => exact absurd rfl hf.1
  | indirect => exact absurd rfl hf.2

/-- Of a form that is checked the operand is passed over. -/
theorem passed_of_not_unchecked (is64 : Bool) (hf : f.unchecked = false) :
    passed cu is64 f s = operand cu is64 f s := by
  unfold passed
  cases operand cu is64 f s with
  | none => simp [hf]
  | some n => rfl

/-- A skip nobody looks at: nothing is passed over if the bytes are not there. -/
theorem Read.Takes.ignore {x : Read Unit} {n : Nat} (h : x.Takes r (Read.Takes.upTo n s))
    (hfail : s.length < n → x r = (none, r)) :
    (Read.ignore x).Takes r
      (match Read.Takes.upTo n s with | none => some 0 | some n => some n) := by
  by_cases hle : n ≤ s.length
  · rw [Read.Takes.upTo_of_le hle] at h ⊢
    obtain ⟨v, hv⟩ := h
    exact ⟨(), by rw [Read.ignore, hv]⟩
  · rw [Read.Takes.upTo_of_lt (by omega)]
    exact ⟨(), by rw [Read.ignore, hfail (by omega), Nat.add_zero, Reader.setP_self]⟩

/-- **What `skip_attributes` passes over for a form.** -/
theorem skipForm_takes (cu : CompileUnit) (h : r.Inside s) (hf : f.Supported) :
    ∃ x, skipForm cu f = some x ∧ x.Takes r (passed cu r.is64 f s) := by
  by_cases hun : f.unchecked = true
  · rcases Form.eq_of_unchecked hun with rfl | rfl
    · refine ⟨_, rfl, ?_⟩
      refine Read.Takes.ignore (Read.Takes.skipOffset h) fun hlt => ?_
      rw [Read.Takes.skipOffset_eq]
      exact Read.Takes.skip_of_lt h (Read.Takes.offsetSize_lt _) hlt
    · refine ⟨_, rfl, ?_⟩
      exact Read.Takes.ignore (Read.Takes.skip h (by omega)) (Read.Takes.skip_of_lt h (by omega))
  rw [passed_of_not_unchecked _ (Bool.eq_false_iff.mpr hun)]
  cases f with
  | data1 => exact ⟨_, rfl, Read.Takes.skip h (by omega)⟩
  | data2 => exact ⟨_, rfl, Read.Takes.skip h (by omega)⟩
  | data4 => exact ⟨_, rfl, Read.Takes.skip h (by omega)⟩
  | data8 => exact ⟨_, rfl, Read.Takes.skip h (by omega)⟩
  | refSig8 => exact absurd rfl hun
  | udata =>
      refine ⟨_, rfl, ?_⟩
      rw [operand_udata]
      exact Read.Takes.skipUleb128 h
  | sdata =>
      refine ⟨_, rfl, ?_⟩
      exact operand_udata cu s r.is64 ▸ Read.Takes.skipUleb128 h
  | addr => exact ⟨_, rfl, Read.Takes.skip h (by omega)⟩
  | flag => exact ⟨_, rfl, Read.Takes.skip h (by omega)⟩
  | ref1 => exact ⟨_, rfl, Read.Takes.skip h (by omega)⟩
  | ref2 => exact ⟨_, rfl, Read.Takes.skip h (by omega)⟩
  | ref4 => exact ⟨_, rfl, Read.Takes.skip h (by omega)⟩
  | ref8 => exact ⟨_, rfl, Read.Takes.skip h (by omega)⟩
  | refAddr => exact ⟨_, rfl, Read.Takes.skipOffset h⟩
  | string =>
      refine ⟨_, rfl, ?_⟩
      rw [operand_string]
      exact Read.Takes.skipString h
  | strp =>
      refine ⟨_, rfl, ?_⟩
      change Read.Takes _ r (Read.Takes.upTo (if cu.version = 2 then 4 else offsetSize r.is64) s)
      split
      · exact Read.Takes.skip h (by omega)
      · exact Read.Takes.skipOffset h
  | block1 =>
      refine ⟨_, rfl, ?_⟩
      rw [operand, operandLength_block1]
      exact Read.Takes.skipBlock h (Read.Takes.lengths_readU8 h)
  | block2 =>
      refine ⟨_, rfl, ?_⟩
      rw [operand, operandLength_block2]
      exact Read.Takes.skipBlock h (Read.Takes.lengths_readLe h (by omega))
  | block4 =>
      refine ⟨_, rfl, ?_⟩
      rw [operand, operandLength_block4]
      exact Read.Takes.skipBlock h (Read.Takes.lengths_readLe h (by omega))
  | block =>
      refine ⟨_, rfl, ?_⟩
      rw [operand, operandLength_block]
      exact Read.Takes.skipBlock h (Read.Takes.lengths_readUleb128 h)
  | exprloc =>
      refine ⟨_, rfl, ?_⟩
      rw [operand]
      exact operandLength_block cu s r.is64 ▸
        Read.Takes.skipBlock h (Read.Takes.lengths_readUleb128 h)
  | secOffset => exact absurd rfl hun
  | flagPresent => exact ⟨_, rfl, ⟨(), Prod.ext rfl r.setP_self.symm⟩⟩
  | refUdata => exact absurd rfl hf.1
  | indirect => exact absurd rfl hf.2

end

end NovaProva.Dwarf
