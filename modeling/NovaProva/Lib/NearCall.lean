import NovaProva.Lib.Bytes

/-!
# Lib — Near calls

The near CALL instructions of the x86, in memory that is a function from 64-bit addresses to bytes:
opcode `E8` with a 32-bit displacement, and `FF` with 2 in the reg field of the ModRM byte, which a
SIB byte and a displacement may follow.  Prefixes are not counted.

* `nearCall mem a`: the length of the one at `a`.
* `nearCallEnds_iff`: which bytes before `ra` are one that ends there.
-/

namespace X86

/-! ### Encoding -/

/-- The mod field of a ModRM byte. -/
def modField (modrm : UInt8) : UInt8 := modrm >>> 6

/-- The reg field, which is part of the opcode for `FF`. -/
def regField (modrm : UInt8) : UInt8 := (modrm >>> 3) &&& 7

/-- The r/m field. -/
def rmField (modrm : UInt8) : UInt8 := modrm &&& 7

/-- Under mod 0, a SIB byte without a base register. -/
def baseless (sib : UInt8) : Bool := sib &&& 7 == 5

/-- Whether a SIB byte follows. -/
def hasSib (modrm : UInt8) : Bool := modField modrm != 3 && rmField modrm == 4

/-- How many bytes of displacement follow. -/
def dispLength (modrm : UInt8) (sibBaseless : Bool) : Nat :=
  if modField modrm = 0 then
    if rmField modrm = 5 ∨ (rmField modrm = 4 ∧ sibBaseless = true) then 4 else 0
  else if modField modrm = 1 then 1
  else if modField modrm = 2 then 4
  else 0

/-- The length of an instruction of one opcode byte with this ModRM byte. -/
def modRMLength (modrm : UInt8) (sibBaseless : Bool) : Nat :=
  2 + (if hasSib modrm then 1 else 0) + dispLength modrm sibBaseless

/-- The length of the near CALL at `a`. -/
def nearCall (mem : UInt64 → UInt8) (a : UInt64) : Option Nat :=
  if mem a = 0xE8 then some 5
  else if mem a = 0xFF ∧ regField (mem (a + 1)) = 2 then
    some (modRMLength (mem (a + 1)) (baseless (mem (a + 2))))
  else none

theorem nearCall_eq_some_iff {mem : UInt64 → UInt8} {a : UInt64} {n : Nat} :
    nearCall mem a = some n ↔ (mem a = 0xE8 ∧ n = 5) ∨ (mem a = 0xFF ∧
      regField (mem (a + 1)) = 2 ∧ modRMLength (mem (a + 1)) (baseless (mem (a + 2))) = n) := by
  have hne : (0xE8 : UInt8) ≠ 0xFF := by decide
  rw [nearCall]
  split
  case isTrue hE8 =>
    rw [hE8]
    simp [hne, eq_comm]
  case isFalse hE8 =>
    split
    case isTrue hFF =>
      simp [hFF.1, hFF.2]
    case isFalse hFF =>
      rw [not_and] at hFF
      simp only [reduceCtorEq, hE8, false_and, false_or, false_iff]
      rintro ⟨hopcode, hreg, -⟩
      exact hFF hopcode hreg

/-- A near CALL of `n` bytes ends at `ra`. -/
def NearCallEnds (mem : UInt64 → UInt8) (ra : UInt64) (n : Nat) : Prop :=
  nearCall mem (ra - UInt64.ofNat n) = some n

/-! ### The bytes before an address -/

/-- The byte `k` before `ra`. -/
def byteBefore (mem : UInt64 → UInt8) (ra : UInt64) (k : Nat) : UInt8 := mem (ra - UInt64.ofNat k)

theorem sub_ofNat_add_one (ra : UInt64) (k : Nat) :
    ra - UInt64.ofNat (k + 1) + 1 = ra - UInt64.ofNat k := by
  rw [UInt64.ofNat_add]
  grind

theorem sub_ofNat_add_two (ra : UInt64) (k : Nat) :
    ra - UInt64.ofNat (k + 2) + 2 = ra - UInt64.ofNat k := by
  rw [UInt64.ofNat_add]
  grind

/-- The ModRM bytes of the near CALLs of `n` bytes. -/
def callModRM (modrm : UInt8) (sibBaseless : Bool) : Nat → Bool
  | 2 => (0x10 ≤ modrm && modrm ≤ 0x13) || (0x16 ≤ modrm && modrm ≤ 0x17) ||
      (0xD0 ≤ modrm && modrm ≤ 0xD7)
  | 3 => (modrm == 0x14 && !sibBaseless) || (0x50 ≤ modrm && modrm ≤ 0x53) ||
      (0x55 ≤ modrm && modrm ≤ 0x57)
  | 4 => modrm == 0x54
  | 6 => modrm == 0x15 || (0x90 ≤ modrm && modrm ≤ 0x93) || (0x95 ≤ modrm && modrm ≤ 0x97)
  | 7 => (modrm == 0x14 && sibBaseless) || modrm == 0x94
  | _ => false

theorem modRMLength_bounds (modrm : UInt8) (sibBaseless : Bool) :
    2 ≤ modRMLength modrm sibBaseless ∧ modRMLength modrm sibBaseless ≤ 7 := by
  unfold modRMLength dispLength
  constructor <;> split_ifs <;> omega

/-- The table of the encodings, byte by byte. -/
theorem callModRM_iff (modrm : UInt8) (sibBaseless : Bool) (n : Nat) :
    callModRM modrm sibBaseless n = true ↔
      regField modrm = 2 ∧ modRMLength modrm sibBaseless = n := by
  have htable : ∀ modrm : UInt8, ∀ sibBaseless : Bool, ∀ n : Fin 8,
      callModRM modrm sibBaseless n = true ↔
        regField modrm = 2 ∧ modRMLength modrm sibBaseless = n :=
    Bytes.forall_byte (by decide +kernel)
  by_cases hn : n < 8
  · exact htable modrm sibBaseless ⟨n, hn⟩
  · have hle := (modRMLength_bounds modrm sibBaseless).2
    refine iff_of_false ?_ fun h => by omega
    obtain ⟨k, rfl⟩ := Nat.exists_eq_add_of_le' (Nat.not_lt.mp hn)
    exact Bool.false_ne_true

/-- The bytes before an address that are a near CALL of `n` bytes. -/
def CallBytes (b : Nat → UInt8) (n : Nat) : Prop :=
  n = 5 ∧ b 5 = 0xE8 ∨ b n = 0xFF ∧ callModRM (b (n - 1)) (baseless (b (n - 2))) n = true

/-- **Which bytes are a near CALL that ends there.** -/
theorem nearCallEnds_iff (mem : UInt64 → UInt8) (ra : UInt64) (n : Nat) :
    NearCallEnds mem ra n ↔ CallBytes (byteBefore mem ra) n := by
  rw [NearCallEnds, CallBytes, nearCall_eq_some_iff, and_comm]
  refine or_congr (and_congr_right fun hn => by rw [hn]; rfl) (and_congr_right fun _ => ?_)
  rw [callModRM_iff]
  by_cases hn : 2 ≤ n
  · obtain ⟨k, rfl⟩ := Nat.exists_eq_add_of_le' hn
    have hmodrm : mem (ra - UInt64.ofNat (k + 2) + 1) = byteBefore mem ra (k + 1) :=
      congrArg mem (sub_ofNat_add_one ra (k + 1))
    have hsib : mem (ra - UInt64.ofNat (k + 2) + 2) = byteBefore mem ra k :=
      congrArg mem (sub_ofNat_add_two ra k)
    rw [hmodrm, hsib]
    rfl
  · -- no CALL with a ModRM byte is that short
    have hle := fun modrm sib => (modRMLength_bounds modrm sib).1
    refine iff_of_false ?_ ?_
    · rintro ⟨-, hlen⟩
      exact hn (hlen ▸ hle _ _)
    · rintro ⟨-, hlen⟩
      exact hn (hlen ▸ hle _ _)

end X86
