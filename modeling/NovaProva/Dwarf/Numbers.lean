import NovaProva.Dwarf.Reader

/-!
# Dwarf — LEB128 numbers of 32 bits

`read_uleb128` and `read_sleb128` on the encodings of 32-bit numbers, with what they do where the
buffer ends inside one.

* `uleb128_read`: every encoding of at most five bytes is read right, and passed by `skip_uleb128`;
  where it is cut short neither method does anything.
* `sleb128_read_iff`: the same of the shortest encodings of signed numbers, but only from `-2 ^ 27`
  on: a smaller number has five bytes, and its sign extension shifts a 32-bit number by 35.
* `signExtend_lebRead_eq_iff`: which numbers come out right however long they are written.
-/

namespace NovaProva.Dwarf

/-- A method with its output parameter, which it assigns only where it returns true: the result,
what the parameter is then, and the reader. -/
def Read.into {α : Type} (x : Read α) (v : α) (r : Reader) : Bool × α × Reader :=
  match x r with
  | (some w, r') => (true, w, r')
  | (none, r')   => (false, v, r')

/-! ### Encodings that are cut short -/

section
variable {l : Leb} {bs : List UInt8}

/-- The loop of `read_uleb128` and `read_sleb128` meets the end of the buffer. -/
theorem lebLoop_truncated (h : l.Truncated bs) (s : Read.LebRun) : Read.lebLoop bs s = none := by
  induction l generalizing bs s with
  | last g =>
      rw [Leb.truncated_last h]
      rfl
  | more g l ih =>
      rcases Leb.truncated_more h with rfl | ⟨bs', rfl, h'⟩
      · rfl
      · rw [Read.lebLoop, if_pos (Leb.moreByte_and_128 g)]
        exact ih h' _

theorem skipLebLoop_truncated (h : l.Truncated bs) (n : Nat) : Read.skipLebLoop bs n = none := by
  induction l generalizing bs n with
  | last g =>
      rw [Leb.truncated_last h]
      rfl
  | more g l ih =>
      rcases Leb.truncated_more h with rfl | ⟨bs', rfl, h'⟩
      · rfl
      · rw [Read.skipLebLoop, if_pos (Leb.moreByte_and_128 g)]
        exact ih h' _

variable {r : Reader} (h : l.Truncated bs) (hr : r.At bs)
include h hr

theorem readUleb128_truncated : Read.readUleb128 r = (none, r) := by
  rw [Read.readUleb128, hr.rest_eq, lebLoop_truncated h]

theorem readSleb128_truncated : Read.readSleb128 r = (none, r) := by
  rw [Read.readSleb128, hr.rest_eq, lebLoop_truncated h]

theorem skipUleb128_truncated : Read.skipUleb128 r = (none, r) := by
  rw [Read.skipUleb128, hr.rest_eq, skipLebLoop_truncated h]

end

/-! ### Unsigned numbers -/

/-- The counts of the shifts that the loop of `read_uleb128` and `read_sleb128` does, from the count
`shift` on. -/
def lebLoopShifts : List UInt8 → Nat → List Nat
  | [],      _     => []
  | b :: bs, shift => shift :: if b &&& 0x80 ≠ 0 then lebLoopShifts bs (shift + 7) else []

/-- The loop shifts by less than seven times the number of bytes. -/
theorem lebLoopShifts_bytes (l : Leb) (t : List UInt8) (shift : Nat) :
    ∀ n ∈ lebLoopShifts (l.bytes ++ t) shift, n + 7 ≤ shift + 7 * l.length := by
  induction l generalizing shift with
  | last g =>
      intro n hn
      simp only [Leb.bytes, List.cons_append, List.nil_append, lebLoopShifts,
        Leb.lastByte_and_128, ne_eq, not_true_eq_false, if_false, List.mem_singleton] at hn
      simp only [Leb.length]
      omega
  | more g l ih =>
      intro n hn
      have hpos := l.length_pos
      rw [Leb.bytes, List.cons_append, lebLoopShifts, if_pos (Leb.moreByte_and_128 g),
        List.mem_cons] at hn
      rw [Leb.length]
      rcases hn with rfl | hn
      · omega
      · have hle := ih (shift + 7) n hn
        omega

/-- What `read_uleb128` and `skip_uleb128` owe an encoding: behind it, with the number it stands
for, whatever follows, with no shift of the 32-bit accumulator by 32 or more; and where they were,
where it is cut short. -/
structure ReadsUleb (l : Leb) (n : Nat) : Prop where
  whole : ∀ (r : Reader) (t : List UInt8) (v : Nat), r.At (l.bytes ++ t) →
    ∃ r', Read.readUleb128.into v r = (true, n, r') ∧ Read.skipUleb128 r = (some (), r') ∧
      r'.At t ∧ r'.p = r.p + l.length
  shifts : ∀ (r : Reader) (t : List UInt8), r.At (l.bytes ++ t) →
    ∀ count ∈ lebLoopShifts r.rest 0, count < 32
  truncated : ∀ (r : Reader) (bs : List UInt8) (v : Nat), l.Truncated bs → r.At bs →
    Read.readUleb128.into v r = (false, v, r) ∧ Read.skipUleb128 r = (none, r)

/-- Moving over the bytes before the reader moves by as many. -/
theorem Reader.At.setP_p {r : Reader} {bs t : List UInt8} (h : r.At (bs ++ t)) :
    (r.setP (r.p + bs.length)).p = r.p + bs.length := by
  have hend := h.end_eq
  have hlt := r.end_lt
  rw [List.length_append] at hend
  exact r.setP_p (by omega)

/-- **Every encoding of a 32-bit number in at most five bytes**, shortest or padded, is read. -/
theorem uleb128_read (n : Nat) (hn : n < 2 ^ 32) (l : Leb) (hl : l.length ≤ 5)
    (hval : l.toNat = n) : ReadsUleb l n where
  whole := by
    intro r t v hr
    subst hval
    have hread := (Reads.readUleb128 (k := 0) hn).run hr
    have hskip := (Reads.skipUleb128 (k := 0) l).run hr
    refine ⟨_, ?_, hskip, hr.setP, ?_⟩
    · rw [Read.into, hread]
    · rw [hr.setP_p, Leb.length_bytes]
  shifts := by
    intro r t hr count hcount
    rw [hr.rest_eq] at hcount
    have hle := lebLoopShifts_bytes l t 0 count hcount
    omega
  truncated := by
    intro r bs v hcut hr
    refine ⟨?_, skipUleb128_truncated hcut hr⟩
    rw [Read.into, readUleb128_truncated hcut hr]

/-- 300 in five bytes, two of them of padding. -/
theorem uleb128_read_padded : ReadsUleb (.more 44 (.more 2 (.more 0 (.more 0 (.last 0))))) 300 :=
  uleb128_read 300 (by decide) _ (by decide) (by decide)

/-! ### Signed numbers of any length -/

/-- What `groups` groups of ones and the ones that extend the sign leave in the accumulator, from
the count `shift` on. -/
def lebOnes : Nat → Nat → Nat
  | shift, 0          => ((2 ^ 32 - 1) <<< (shift % 32)) % 2 ^ 32
  | shift, groups + 1 => (127 <<< (shift % 32)) % 2 ^ 32 ||| lebOnes (shift + 7) groups

/-- A number that ends with the groups of -1. -/
theorem lebRead_ones {l : Leb} (h : l.toInt = -1) (s : Read.LebRun) :
    (lebRead l s).vv ||| ((2 ^ 32 - 1) <<< ((lebRead l s).shift % 32)) % 2 ^ 32 =
      s.vv ||| lebOnes s.shift l.length := by
  induction l generalizing s with
  | last g =>
      have hg : (g : Nat) = 127 := by
        have hlt := g.isLt
        rw [Leb.toInt] at h
        split at h
        · omega
        · omega
      rw [lebRead, hg, Nat.or_assoc]
      rfl
  | more g l ih =>
      rw [Leb.toInt] at h
      have hlt := g.isLt
      have hg : (g : Nat) = 127 := by omega
      rw [lebRead, ih (by omega), hg, Nat.or_assoc]
      rfl

theorem lebOnes_lt (shift groups : Nat) : lebOnes shift groups < 2 ^ 32 := by
  induction groups generalizing shift with
  | zero => exact Nat.mod_lt _ (Nat.two_pow_pos 32)
  | succ n ih => exact Nat.or_lt_two_pow (Nat.mod_lt _ (Nat.two_pow_pos 32)) (ih _)

/-- The ones of the later groups are among those of all. -/
theorem lebOnes_add_or (shift n m : Nat) :
    lebOnes (shift + 7 * n) m ||| lebOnes shift (n + m) = lebOnes shift (n + m) := by
  induction n generalizing shift with
  | zero => rw [Nat.mul_zero, Nat.add_zero, Nat.zero_add, Nat.or_self]
  | succ n ih =>
      have hshift : shift + 7 * (n + 1) = shift + 7 + 7 * n := by omega
      rw [Nat.succ_add, lebOnes, hshift, ← Nat.or_assoc, Nat.or_comm (lebOnes _ m), Nat.or_assoc,
        ih]

/-- From the sixth byte on all but the three lowest bits are set. -/
theorem lebOnes_div (m : Nat) : lebOnes 35 m / 8 = 2 ^ 29 - 1 := by
  have hlt := lebOnes_lt 35 m
  match m with
  | 0 | 1 | 2 | 3 | 4 => decide
  | m + 5 =>
      have hones : lebOnes 35 (m + 5) = (2 ^ 32 - 8) ||| lebOnes 70 m := by
        simp only [lebOnes, ← Nat.or_assoc]
        rfl
      have hle : 2 ^ 32 - 8 ≤ lebOnes 35 (m + 5) := hones ▸ Nat.left_le_or
      omega

/-- The least number that `read_sleb128` reads right from so many bytes.  The ones of the sixth and
later bytes and of the sign extension are shifted by 32 bits or more, of which an x86 takes the
remainder, so that only the lowest bits of the number are left. -/
def leastSigned (length : Nat) : Int :=
  if length ≤ 4 then -2 ^ 27
  else if length ≤ 13 then -8
  else if length ≤ 22 then -4
  else if length ≤ 31 then -2
  else -1

/-- Three set bits stay set. -/
theorem or_mod_eight {a b : Nat} (h : a % 8 = 7) : (a ||| b) % 8 = 7 := by
  have hmod : (a ||| b) % 8 = 7 ||| b % 8 := by
    rw [← h]
    exact Nat.or_mod_two_pow (n := 3)
  have hle : 7 ≤ 7 ||| b % 8 := Nat.left_le_or
  omega

theorem leastSigned_neg (length : Nat) : leastSigned length < 0 := by
  unfold leastSigned
  split_ifs <;> omega

theorem lebOnes_mod (m : Nat) : ((lebOnes 35 m % 8 : Nat) : Int) = 8 + leastSigned (m + 5) := by
  by_cases hm : m < 27
  · revert m
    decide
  · obtain ⟨n, rfl⟩ := Nat.exists_eq_add_of_le (Nat.not_lt.mp hm)
    -- the shift by 224 is one by 0
    have hlast : lebOnes (35 + 7 * 27) n % 8 = 7 := by
      cases n with
      | zero => rfl
      | succ n => exact or_mod_eight rfl
    rw [← lebOnes_add_or 35 27 n, or_mod_eight hlast, leastSigned]
    simp only [show ¬ 27 + n + 5 ≤ 4 by omega, show ¬ 27 + n + 5 ≤ 13 by omega,
      show ¬ 27 + n + 5 ≤ 22 by omega, show ¬ 27 + n + 5 ≤ 31 by omega, if_false]
    rfl

/-- The accumulator with the ones of `m` groups and of the sign extension, as a signed number. -/
theorem int32_or_lebOnes {vv : Nat} (hvv : vv < 2 ^ 32) (m : Nat) :
    Read.int32 (vv ||| lebOnes 35 m) = -8 + ((vv % 8 ||| lebOnes 35 m % 8 : Nat) : Int) := by
  have hmod : (vv ||| lebOnes 35 m) % 8 = vv % 8 ||| lebOnes 35 m % 8 := Nat.or_mod_two_pow (n := 3)
  have hle : lebOnes 35 m ≤ vv ||| lebOnes 35 m := Nat.right_le_or
  have hlt : vv ||| lebOnes 35 m < 2 ^ 32 := Nat.or_lt_two_pow hvv (lebOnes_lt 35 m)
  have hdiv := lebOnes_div m
  rw [← hmod, Read.int32, if_neg (by omega)]
  omega

/-- Bits that are ones already. -/
theorem or_eq_iff_le {m : Nat} {x : Nat} (hx : x < 8) :
    x ||| lebOnes 35 m % 8 = x ↔ (lebOnes 35 m % 8 : Nat) ≤ x := by
  have hcases : lebOnes 35 m % 8 = 0 ∨ lebOnes 35 m % 8 = 4 ∨ lebOnes 35 m % 8 = 6 ∨
      lebOnes 35 m % 8 = 7 := by
    have hmod := lebOnes_mod m
    unfold leastSigned at hmod
    split_ifs at hmod <;> omega
  rcases hcases with h | h | h | h
  all_goals
    rw [h]
    revert x
    decide
/-- A group that is shifted by three bits or more leaves the lowest three as they are. -/
theorem or_shift_mod (a g : Nat) {k : Nat} (hk : 3 ≤ k) :
    (a ||| (g <<< k) % 2 ^ 32) % 8 = a % 8 := by
  obtain ⟨j, rfl⟩ := Nat.exists_eq_add_of_le hk
  have hshift : (g <<< (3 + j)) % 2 ^ 32 % 8 = 0 := by
    rw [Nat.shiftLeft_eq, pow_add, Nat.mul_left_comm]
    omega
  have hmod : (a ||| (g <<< (3 + j)) % 2 ^ 32) % 8 = a % 8 ||| (g <<< (3 + j)) % 2 ^ 32 % 8 :=
    Nat.or_mod_two_pow (n := 3)
  rw [hmod, hshift, Nat.or_zero]

/-- The accumulator after five groups. -/
def fiveGroups (g₀ g₁ g₂ g₃ g₄ : Fin 128) : Nat :=
  ((((0 ||| ((g₀ : Nat) <<< 0) % 2 ^ 32) ||| ((g₁ : Nat) <<< 7) % 2 ^ 32) |||
    ((g₂ : Nat) <<< 14) % 2 ^ 32) ||| ((g₃ : Nat) <<< 21) % 2 ^ 32) ||| ((g₄ : Nat) <<< 28) % 2 ^ 32

theorem fiveGroups_lt (g₀ g₁ g₂ g₃ g₄ : Fin 128) : fiveGroups g₀ g₁ g₂ g₃ g₄ < 2 ^ 32 := by
  have hlt (n : Nat) : n % 2 ^ 32 < 2 ^ 32 := Nat.mod_lt n (Nat.two_pow_pos 32)
  exact Nat.or_lt_two_pow (Nat.or_lt_two_pow (Nat.or_lt_two_pow (Nat.or_lt_two_pow
    (Nat.or_lt_two_pow (Nat.two_pow_pos 32) (hlt _)) (hlt _)) (hlt _)) (hlt _)) (hlt _)

theorem fiveGroups_mod (g₀ g₁ g₂ g₃ g₄ : Fin 128) :
    fiveGroups g₀ g₁ g₂ g₃ g₄ % 8 = (g₀ : Nat) % 8 := by
  rw [fiveGroups, or_shift_mod _ _ (by omega), or_shift_mod _ _ (by omega),
    or_shift_mod _ _ (by omega), or_shift_mod _ _ (by omega), Nat.zero_or, Nat.shiftLeft_zero]
  omega

/-- A negative number of 32 bits in five or more bytes ends with groups of ones. -/
theorem lebRead_of_five {l : Leb} (hneg : l.isNeg = true) (hlen : 5 ≤ l.length)
    (hlo : -2 ^ 31 ≤ l.toInt) :
    ∃ vv m, l.length = m + 5 ∧ vv < 2 ^ 32 ∧ ((vv % 8 : Nat) : Int) = l.toInt % 8 ∧
      (lebRead l Read.lebStart).vv |||
          ((2 ^ 32 - 1) <<< ((lebRead l Read.lebStart).shift % 32)) % 2 ^ 32 =
        vv ||| lebOnes 35 m := by
  have hlt := l.isNeg_iff.mp hneg
  match l with
  | .last _ | .more _ (.last _) | .more _ (.more _ (.last _))
  | .more _ (.more _ (.more _ (.last _))) => simp [Leb.length] at hlen
  | .more g₀ (.more g₁ (.more g₂ (.more g₃ (.last g₄)))) =>
      refine ⟨fiveGroups g₀ g₁ g₂ g₃ g₄, 0, rfl, fiveGroups_lt .., ?_, rfl⟩
      rw [fiveGroups_mod]
      simp only [Leb.toInt]
      omega
  | .more g₀ (.more g₁ (.more g₂ (.more g₃ (.more g₄ l)))) =>
      simp only [Leb.toInt] at hlt hlo
      have hones : l.toInt = -1 := by omega
      refine ⟨fiveGroups g₀ g₁ g₂ g₃ g₄, l.length, rfl, fiveGroups_lt .., ?_, ?_⟩
      · rw [fiveGroups_mod]
        simp only [Leb.toInt]
        omega
      · exact lebRead_ones hones _

theorem int32_bounds {n : Nat} (h : n < 2 ^ 32) :
    -2 ^ 31 ≤ Read.int32 n ∧ Read.int32 n < 2 ^ 31 := by
  unfold Read.int32
  split
  · omega
  · omega

/-- **Signed numbers of any length**: which of them `read_sleb128` reads right. -/
theorem signExtend_lebRead_eq_iff (l : Leb) :
    Read.signExtend (lebRead l Read.lebStart) = l.toInt ↔
      leastSigned l.length ≤ l.toInt ∧ l.toInt < 2 ^ 31 := by
  have hvv := lebRead_vv_lt l Read.lebStart (Nat.two_pow_pos 32)
  have hsign : (lebRead l Read.lebStart).last &&& 0x40 ≠ 0 ↔ l.isNeg = true := by
    rw [last_lebRead]
    exact l.final_and_64
  have hleast := leastSigned_neg l.length
  cases hneg : l.isNeg with
  | false =>
      have hval : l.toInt = l.toNat := by
        rw [l.toInt_eq, hneg]
        simp
      have hbounds := int32_bounds hvv
      rw [Read.signExtend, if_neg (by rw [hsign, hneg]; simp)]
      constructor
      · intro h
        omega
      · rintro ⟨-, hlt⟩
        rw [(lebRead_eq_iff l).mpr (by omega), Read.int32, if_pos (by omega), hval]
  | true =>
      have hlt := l.isNeg_iff.mp hneg
      by_cases hlen : l.length ≤ 4
      · have hpow : 128 ^ l.length ≤ 128 ^ 4 := Nat.pow_le_pow_right (by omega) hlen
        have hbounds := l.toInt_bounds
        refine iff_of_true (signExtend_lebRead hlen) ⟨?_, by omega⟩
        rw [leastSigned, if_pos hlen]
        omega
      · rw [Read.signExtend, if_pos (hsign.mpr hneg)]
        by_cases hlo : -2 ^ 31 ≤ l.toInt
        · obtain ⟨vv, m, hm, hlt', hmod, hor⟩ := lebRead_of_five hneg (by omega) hlo
          have hle := or_eq_iff_le (m := m) (x := vv % 8) (by omega)
          have hones := lebOnes_mod m
          rw [hor, int32_or_lebOnes hlt', hm]
          constructor
          · intro h
            omega
          · intro h
            rw [hle.mpr (by omega)]
            omega
        · have hbounds := int32_bounds (Nat.or_lt_two_pow hvv (Nat.mod_lt ((2 ^ 32 - 1) <<<
            ((lebRead l Read.lebStart).shift % 32)) (Nat.two_pow_pos 32)))
          have hge : -8 ≤ leastSigned l.length := by
            unfold leastSigned
            split_ifs <;> omega
          constructor
          · intro h
            omega
          · intro h
            omega

/-! ### Signed numbers -/

/-- The counts of all the shifts that `read_sleb128` does: those of the loop, and, if the last
encoded bit is set, that of the sign extension. -/
def sleb128Shifts (r : Reader) : List Nat :=
  lebLoopShifts r.rest 0 ++
    match Read.lebLoop r.rest Read.lebStart with
    | none   => []
    | some s => if s.last &&& 0x40 ≠ 0 then [s.shift] else []

/-- The shifts over a whole encoding. -/
theorem sleb128Shifts_eq {r : Reader} {l : Leb} {t : List UInt8} (hr : r.At (l.bytes ++ t)) :
    sleb128Shifts r =
      lebLoopShifts (l.bytes ++ t) 0 ++ if l.isNeg then [7 * l.length] else [] := by
  rw [sleb128Shifts, hr.rest_eq, lebLoop_append]
  dsimp only
  rw [shift_lebRead, last_lebRead, Read.lebStart, Nat.zero_add]
  simp only [l.final_and_64]

/-- No shift reaches 32 exactly if the encoding has at most five bytes, or four of a negative
number. -/
theorem shifts_lt_iff {r : Reader} {l : Leb} {t : List UInt8} (hr : r.At (l.bytes ++ t))
    (hl : l.length ≤ 5) : (∀ n ∈ sleb128Shifts r, n < 32) ↔ (l.isNeg = true → l.length ≤ 4) := by
  have hloop := lebLoopShifts_bytes l t 0
  rw [sleb128Shifts_eq hr]
  constructor
  · intro hall hneg
    have hlast := hall (7 * l.length) (by simp [hneg])
    omega
  · intro hneg n hn
    rcases List.mem_append.mp hn with hn | hn
    · have hle := hloop n hn
      omega
    · split at hn
      case isTrue h =>
        have hfour := hneg h
        rw [List.mem_singleton] at hn
        omega
      · cases hn

/-- The shortest encoding of a 32-bit signed number, which five bytes can hold. -/
def sleb128 (v : Int) : Leb := Leb.ofInt 4 v

/-- What `read_sleb128` and `skip_sleb128` owe the shortest encoding of a number, with no shift of
the 32-bit accumulator by 32 or more. -/
structure ReadsSleb (v : Int) : Prop where
  whole : ∀ (r : Reader) (t : List UInt8) (w : Int), r.At ((sleb128 v).bytes ++ t) →
    ∃ r', Read.readSleb128.into w r = (true, v, r') ∧ Read.skipSleb128 r = (some (), r') ∧
      r'.At t ∧ r'.p = r.p + (sleb128 v).length
  shifts : ∀ (r : Reader) (t : List UInt8), r.At ((sleb128 v).bytes ++ t) →
    ∀ n ∈ sleb128Shifts r, n < 32
  truncated : ∀ (r : Reader) (bs : List UInt8) (w : Int), (sleb128 v).Truncated bs → r.At bs →
    Read.readSleb128.into w r = (false, w, r) ∧ Read.skipSleb128 r = (none, r)

section
variable {v : Int} (hlo : -2 ^ 31 ≤ v) (hhi : v < 2 ^ 31)
include hlo hhi

theorem toInt_sleb128 : (sleb128 v).toInt = v := Leb.toInt_ofInt (by omega) (by omega)

theorem isNeg_sleb128 : (sleb128 v).isNeg = true ↔ v < 0 := by
  rw [Leb.isNeg_iff, toInt_sleb128 hlo hhi]

/-- The negative numbers of at most four bytes. -/
theorem length_sleb128_le_four (hneg : v < 0) : (sleb128 v).length ≤ 4 ↔ -2 ^ 27 ≤ v := by
  constructor
  · intro hlen
    have hbounds := (sleb128 v).toInt_bounds
    have hpow : 128 ^ (sleb128 v).length ≤ 128 ^ 4 := Nat.pow_le_pow_right (by omega) hlen
    rw [toInt_sleb128 hlo hhi] at hbounds
    omega
  · intro hv
    have hfour : (Leb.ofInt 3 v).toInt = v := Leb.toInt_ofInt (by omega) (by omega)
    have hshort := Leb.length_ofInt_le 4 (Leb.ofInt 3 v)
    rw [hfour] at hshort
    exact hshort.trans (Leb.length_ofInt 3 v)

end

/-- **Signed numbers of 32 bits** are read right, without an undefined shift, exactly from
`-2 ^ 27` on. -/
theorem sleb128_read_iff (v : Int) (hlo : -2 ^ 31 ≤ v) (hhi : v < 2 ^ 31) :
    ReadsSleb v ↔ -2 ^ 27 ≤ v := by
  have hfive : (sleb128 v).length ≤ 5 := Leb.length_ofInt 4 v
  have hval := toInt_sleb128 hlo hhi
  have hsign := isNeg_sleb128 hlo hhi
  constructor
  · intro h
    by_contra hv
    have hneg : v < 0 := by omega
    have hlen : 0 + (sleb128 v).bytes.length < 2 ^ 64 := by
      rw [Leb.length_bytes]
      omega
    have hat := (Reader.at_ofBuffer 0 (sleb128 v).bytes hlen).append_nil
    have hfour := (shifts_lt_iff hat hfive).mp (h.shifts _ _ hat) (hsign.mpr hneg)
    exact hv ((length_sleb128_le_four hlo hhi hneg).mp hfour)
  · intro hv
    have hshort : (sleb128 v).isNeg = true → (sleb128 v).length ≤ 4 := fun hneg =>
      (length_sleb128_le_four hlo hhi (hsign.mp hneg)).mpr hv
    refine ⟨fun r t w hr => ?_, fun r t hr => (shifts_lt_iff hr hfive).mpr hshort,
      fun r bs w hcut hr => ⟨?_, skipUleb128_truncated hcut hr⟩⟩
    · have hright : Read.signExtend (lebRead (sleb128 v) Read.lebStart) = (sleb128 v).toInt := by
        cases hneg : (sleb128 v).isNeg with
        | true => exact signExtend_lebRead (hshort hneg)
        | false =>
            have hleast := leastSigned_neg (sleb128 v).length
            have hnonneg : ¬ v < 0 := fun hlt => by simp [hsign.mpr hlt] at hneg
            rw [signExtend_lebRead_eq_iff, hval]
            exact ⟨by omega, hhi⟩
      have hread : Reads r.is64 0 Read.readSleb128 (sleb128 v).bytes (sleb128 v).toInt :=
        hright ▸ .readSleb128_any (sleb128 v)
      have hskip := (Reads.skipSleb128 (k := 0) (sleb128 v)).run hr
      refine ⟨_, ?_, hskip, hr.setP, ?_⟩
      · rw [Read.into, hread.run hr, hval]
      · rw [hr.setP_p, Leb.length_bytes]
    · rw [Read.into, readSleb128_truncated hcut hr]

/-- From `-2 ^ 27` on. -/
theorem sleb128_read_neg : ReadsSleb (-2 ^ 27) :=
  (sleb128_read_iff (-2 ^ 27) (by decide) (by decide)).mpr (by decide)

/-- `-2 ^ 28`, which is written `80 80 80 80 7f`, is read as -8. -/
theorem sleb128_misread : ¬ ∀ v : Int, -2 ^ 31 ≤ v → v < 2 ^ 31 → ReadsSleb v := by
  intro hall
  have h := hall (-2 ^ 28) (by decide) (by decide)
  have hat := (Reader.at_ofBuffer 0 (sleb128 (-2 ^ 28)).bytes (by decide)).append_nil
  obtain ⟨r', hread, -⟩ := h.whole _ _ 0 hat
  have hval : (Read.readSleb128.into 0 (Reader.ofBuffer 0 (sleb128 (-2 ^ 28)).bytes
      (by decide))).2.1 = -8 := by decide
  rw [hread] at hval
  have hne : ¬ (-2 ^ 28 : Int) = -8 := by decide
  exact hne hval

end NovaProva.Dwarf
