import Mathlib.Data.List.Basic
import Mathlib.Data.UInt
import Mathlib.Tactic.Ring

/-!
# Lib — Leb128

Numbers in LEB128 as they are written: groups of seven bits, lowest first, each in a byte whose
high bit says that another one follows.  A number has many such encodings, since groups of zeros
may pad it; a `Leb` is one of them, and `toNat` and `toInt` are the unsigned and the signed number
it stands for.
-/

/-- A LEB128 encoding. -/
inductive Leb where
  | last (g : Fin 128)
  | more (g : Fin 128) (l : Leb)
  deriving DecidableEq

namespace Leb

/-- A number below 128, in one byte. -/
def byte (n : Nat) : Leb := last (Fin.ofNat 128 n)

/-- A number below 128 over so many groups of zeros. -/
def shifted (n : Nat) : Nat → Leb
  | 0     => byte n
  | k + 1 => more 0 (shifted n k)

/-- The byte of a group that another one follows. -/
def moreByte (g : Fin 128) : UInt8 := UInt8.ofNat (g + 128)

/-- The byte of the last group. -/
def lastByte (g : Fin 128) : UInt8 := UInt8.ofNat g

/-- The bytes of an encoding, the last one without the high bit. -/
def bytes : Leb → List UInt8
  | last g   => [lastByte g]
  | more g l => moreByte g :: l.bytes

/-- The number of bytes. -/
def length : Leb → Nat
  | last _   => 1
  | more _ l => l.length + 1

/-- The unsigned number. -/
def toNat : Leb → Nat
  | last g   => g
  | more g l => g + 128 * l.toNat

/-- The signed number: bit 6 of the last group is the sign. -/
def toInt : Leb → Int
  | last g   => if g < 64 then (g : Nat) else (g : Nat) - 128
  | more g l => (g : Nat) + 128 * l.toInt

/-- Whether the sign bit is set. -/
def isNeg : Leb → Bool
  | last g   => 64 ≤ g
  | more _ l => l.isNeg

/-- The last byte. -/
def final : Leb → UInt8
  | last g   => lastByte g
  | more _ l => l.final

@[simp] theorem length_bytes (l : Leb) : l.bytes.length = l.length := by
  induction l with
  | last g => rfl
  | more g l ih => rw [bytes, List.length_cons, ih, length]

theorem length_pos (l : Leb) : 0 < l.length := by
  cases l with
  | last g => exact Nat.zero_lt_one
  | more g l => exact Nat.succ_pos _

/-- An encoding has at least one byte. -/
theorem bytes_ne_nil (l : Leb) : l.bytes ≠ [] :=
  List.ne_nil_of_length_pos (l.length_bytes ▸ l.length_pos)

theorem toNat_lt (l : Leb) : l.toNat < 128 ^ l.length := by
  induction l with
  | last g => exact g.isLt
  | more g l ih =>
      rw [toNat, length, pow_succ']
      have hg := g.isLt
      omega

/-- The signed number is the unsigned one, less `128 ^ length` if the sign bit is set. -/
theorem toInt_eq (l : Leb) :
    l.toInt = (l.toNat : Int) - if l.isNeg then (128 ^ l.length : Nat) else 0 := by
  induction l with
  | last g =>
      simp only [toInt, toNat, isNeg, length, decide_eq_true_eq]
      by_cases hg : g < 64
      · rw [if_pos hg, if_neg (Fin.not_le.mpr hg)]
        omega
      · rw [if_neg hg, if_pos (Fin.not_lt.mp hg)]
        omega
  | more g l ih =>
      rw [toInt, toNat, isNeg, length, ih, pow_succ']
      split
      · push_cast
        ring
      · push_cast
        ring

/-- A number without the sign bit is below half of what its groups can hold. -/
theorem toNat_lt_of_not_isNeg {l : Leb} (h : l.isNeg = false) :
    2 * l.toNat + 1 < 128 ^ l.length := by
  induction l with
  | last g =>
      have hg : ¬ (64 : Fin 128) ≤ g := by simpa [isNeg] using h
      have hlt : (g : Nat) < 64 := Fin.not_le.mp hg
      simp only [toNat, length]
      omega
  | more g l ih =>
      have hl := ih h
      have hg := g.isLt
      rw [toNat, length, pow_succ']
      omega

/-- A number with the sign bit is at least that half. -/
theorem le_toNat_of_isNeg {l : Leb} (h : l.isNeg = true) :
    128 ^ l.length ≤ 2 * l.toNat := by
  induction l with
  | last g =>
      have hg : (64 : Fin 128) ≤ g := by simpa [isNeg] using h
      have hle : 64 ≤ (g : Nat) := hg
      simp only [toNat, length]
      omega
  | more g l ih =>
      have hl := ih h
      rw [toNat, length, pow_succ']
      omega

/-- The sign bit is that of a negative number. -/
theorem isNeg_iff (l : Leb) : l.isNeg = true ↔ l.toInt < 0 := by
  have hlt := l.toNat_lt
  rw [l.toInt_eq]
  cases h : l.isNeg with
  | true =>
      rw [if_pos rfl]
      exact iff_of_true rfl (by omega)
  | false => simp

/-- What the groups of a signed number can hold. -/
theorem toInt_bounds (l : Leb) :
    -(128 ^ l.length : Nat) ≤ 2 * l.toInt ∧ 2 * l.toInt < (128 ^ l.length : Nat) := by
  have hlt := l.toNat_lt
  rw [l.toInt_eq]
  cases h : l.isNeg with
  | true =>
      have hle := le_toNat_of_isNeg h
      rw [if_pos rfl]
      omega
  | false =>
      have hle := toNat_lt_of_not_isNeg h
      rw [if_neg Bool.false_ne_true]
      omega

/-! ### Accumulating -/

/-- What a first group adds to an accumulator of `shift` bits, and what the rest then adds. -/
theorem two_pow_mul_more (shift : Nat) (g : Fin 128) (l : Leb) :
    2 ^ shift * (more g l).toNat = 2 ^ shift * g + 2 ^ (shift + 7) * l.toNat := by
  rw [toNat, pow_add]
  ring

theorem add_group_lt {vv shift : Nat} (g : Fin 128) (h : vv < 2 ^ shift) :
    vv + 2 ^ shift * (g : Nat) < 2 ^ (shift + 7) := by
  have hle : 2 ^ shift * (g : Nat) ≤ 2 ^ shift * 127 :=
    Nat.mul_le_mul_left _ (Nat.le_of_lt_succ g.isLt)
  rw [pow_add]
  omega

/-! ### The shortest encoding -/

/-- The lowest group of a signed number. -/
def group (v : Int) : Fin 128 := Fin.ofNat 128 (v % 128).toNat

/-- The shortest encoding of a signed number that `n + 1` groups can hold. -/
def ofInt : Nat → Int → Leb
  | 0,     v => last (group v)
  | n + 1, v => if -64 ≤ v ∧ v < 64 then last (group v) else more (group v) (ofInt n (v / 128))

@[simp] theorem coe_group (v : Int) : ((group v : Nat) : Int) = v % 128 := by
  have hval : (group v : Nat) = (v % 128).toNat % 128 := rfl
  rw [hval]
  omega

theorem toInt_last_group {v : Int} (hlo : -64 ≤ v) (hhi : v < 64) : (last (group v)).toInt = v := by
  have hg := coe_group v
  rw [toInt]
  split
  case isTrue hlt =>
    have hval : (group v : Nat) < 64 := hlt
    omega
  case isFalse hge =>
    have hval : ¬ (group v : Nat) < 64 := hge
    omega

/-- It stands for the number. -/
theorem toInt_ofInt {n : Nat} {v : Int} (hlo : -(128 ^ (n + 1) : Nat) ≤ 2 * v)
    (hhi : 2 * v < (128 ^ (n + 1) : Nat)) : (ofInt n v).toInt = v := by
  induction n generalizing v with
  | zero => exact toInt_last_group (by omega) (by omega)
  | succ n ih =>
      rw [ofInt]
      split
      case isTrue h =>
        exact toInt_last_group h.1 h.2
      · have hpow : 128 ^ (n + 1 + 1) = 128 * (128 * 128 ^ n) := by
          rw [pow_succ', pow_succ']
        rw [hpow] at hlo hhi
        have hdiv := ih (v := v / 128) (by rw [pow_succ']; omega) (by rw [pow_succ']; omega)
        rw [toInt, hdiv, coe_group]
        omega

theorem length_ofInt (n : Nat) (v : Int) : (ofInt n v).length ≤ n + 1 := by
  induction n generalizing v with
  | zero => exact Nat.le_refl 1
  | succ n ih =>
      rw [ofInt]
      split
      · exact Nat.succ_le_succ (Nat.zero_le _)
      · exact Nat.succ_le_succ (ih (v / 128))

/-- **No encoding of the number is shorter.** -/
theorem length_ofInt_le (n : Nat) (l : Leb) : (ofInt n l.toInt).length ≤ l.length := by
  induction n generalizing l with
  | zero => exact l.length_pos
  | succ n ih =>
      rw [ofInt]
      split
      · exact l.length_pos
      case isFalse hbig =>
        cases l with
        | last g =>
            -- one group holds the numbers from -64 up to 63
            have hbounds := (last g).toInt_bounds
            simp only [length] at hbounds
            omega
        | more g l =>
            have hdiv : (more g l).toInt / 128 = l.toInt := by
              rw [toInt]
              omega
            rw [hdiv]
            exact Nat.succ_le_succ (ih l)

/-! ### Prefixes -/

/-- The bytes of an encoding that stops before its last one. -/
def Truncated (l : Leb) (bs : List UInt8) : Prop := bs <+: l.bytes ∧ bs ≠ l.bytes

theorem truncated_last {g : Fin 128} {bs : List UInt8} (h : (last g).Truncated bs) : bs = [] := by
  obtain ⟨hpre, hne⟩ := h
  rcases List.prefix_cons_iff.mp hpre with hnil | ⟨bs', rfl, hbs'⟩
  · exact hnil
  · rw [List.prefix_nil.mp hbs'] at hne
    exact absurd rfl hne

theorem truncated_more {g : Fin 128} {l : Leb} {bs : List UInt8} (h : (more g l).Truncated bs) :
    bs = [] ∨ ∃ bs', bs = moreByte g :: bs' ∧ l.Truncated bs' := by
  obtain ⟨hpre, hne⟩ := h
  rcases List.prefix_cons_iff.mp hpre with hnil | ⟨bs', rfl, hbs'⟩
  · exact .inl hnil
  · exact .inr ⟨bs', rfl, hbs', fun heq => hne (by rw [heq]; rfl)⟩

/-! ### The bits of a byte -/

theorem moreByte_and_128 : ∀ g : Fin 128, moreByte g &&& 0x80 ≠ 0 := by decide
theorem lastByte_and_128 : ∀ g : Fin 128, lastByte g &&& 0x80 = 0 := by decide

@[simp] theorem moreByte_and_127 : ∀ g : Fin 128, (moreByte g &&& 0x7f).toNat = g := by decide
@[simp] theorem lastByte_and_127 : ∀ g : Fin 128, (lastByte g &&& 0x7f).toNat = g := by decide

theorem lastByte_and_64 : ∀ g : Fin 128, lastByte g &&& 0x40 ≠ 0 ↔ 64 ≤ g := by decide

theorem final_and_64 (l : Leb) : l.final &&& 0x40 ≠ 0 ↔ l.isNeg = true := by
  induction l with
  | last g => rw [final, lastByte_and_64, isNeg, decide_eq_true_eq]
  | more g l ih => exact ih

end Leb
