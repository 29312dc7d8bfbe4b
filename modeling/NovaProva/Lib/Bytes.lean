import Mathlib.Data.List.Basic
import Mathlib.Data.UInt
import Mathlib.Tactic.Ring

/-!
# Lib — Bytes

Little-endian numbers over lists of bytes: `leBytes k n` is the `k` low bytes of `n`, lowest
first, and `leNat` reads a list of bytes back.
-/

namespace Bytes

/-- The `k` low bytes of `n`, lowest first. -/
def leBytes : Nat → Nat → List UInt8
  | 0,     _ => []
  | k + 1, n => UInt8.ofNat n :: leBytes k (n / 256)

/-- The number a list of bytes spells, lowest byte first. -/
def leNat : List UInt8 → Nat
  | []      => 0
  | b :: bs => b.toNat + 256 * leNat bs

@[simp] theorem length_leBytes (k n : Nat) : (leBytes k n).length = k := by
  induction k generalizing n with
  | zero => rfl
  | succ k ih => rw [leBytes, List.length_cons, ih]

theorem leNat_leBytes (k n : Nat) : leNat (leBytes k n) = n % 256 ^ k := by
  induction k generalizing n with
  | zero => simp [leBytes, leNat, Nat.mod_one]
  | succ k ih =>
      have hp : (256 : Nat) ^ (k + 1) = 256 * 256 ^ k := pow_succ' 256 k
      rw [leBytes, leNat, ih, UInt8.toNat_ofNat', hp, Nat.mod_mul]

/-- A number below `256 ^ k` survives its `k` bytes. -/
theorem leNat_leBytes_of_lt {k n : Nat} (h : n < 256 ^ k) : leNat (leBytes k n) = n := by
  rw [leNat_leBytes, Nat.mod_eq_of_lt h]

/-- A list of bytes spells a number of no more digits than it has bytes. -/
theorem leNat_lt (bs : List UInt8) : leNat bs < 256 ^ bs.length := by
  induction bs with
  | nil => exact Nat.one_pos
  | cons b bs ih =>
      have hb := b.toNat_lt
      have hp : (256 : Nat) ^ (bs.length + 1) = 256 * 256 ^ bs.length := pow_succ' 256 bs.length
      rw [leNat, List.length_cons, hp]
      omega

theorem leNat_append (bs cs : List UInt8) :
    leNat (bs ++ cs) = leNat bs + 256 ^ bs.length * leNat cs := by
  induction bs with
  | nil => simp [leNat]
  | cons b bs ih =>
      rw [List.cons_append, leNat, leNat, ih, List.length_cons, pow_succ']
      ring

/-- The high bytes of a small number are 0. -/
theorem eq_zero_of_leNat_lt {bs : List UInt8} {b : UInt8}
    (h : leNat (bs ++ [b]) < 256 ^ bs.length) : b = 0 := by
  rw [leNat_append, leNat, leNat] at h
  have hzero : b.toNat = 0 := by
    by_contra hpos
    have hle := Nat.le_mul_of_pos_right (256 ^ bs.length) (Nat.pos_of_ne_zero hpos)
    rw [Nat.mul_zero, Nat.add_zero] at h
    omega
  exact UInt8.toNat_inj.mp hzero

/-- Of things that have at least a byte each there are no more than bytes. -/
theorem length_le_length_flatMap {α : Type} {f : α → List UInt8} (h : ∀ a, 0 < (f a).length)
    (l : List α) : l.length ≤ (l.flatMap f).length := by
  induction l with
  | nil => exact Nat.le_refl _
  | cons a l ih =>
      have ha := h a
      rw [List.flatMap_cons, List.length_append, List.length_cons]
      omega

/-- What holds of each of the 256 bytes. -/
theorem forall_byte {P : UInt8 → Prop} (h : ∀ i : Fin 256, P (UInt8.ofNat i)) (b : UInt8) :
    P b := by
  have hb := h ⟨b.toNat, b.toNat_lt⟩
  rwa [UInt8.ofNat_toNat] at hb

end Bytes
