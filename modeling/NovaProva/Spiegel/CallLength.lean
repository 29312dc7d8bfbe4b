import NovaProva.Lib.NearCall

/-!
# Spiegel — Call instructions before a return address

`call_instruction_length_for_ra` of `np/spiegel/platform/x86x.cxx`, which compares the bytes before
a return address with a table of the forms of CALL.  The forms of `FF` in the table do not test the
reg field of the ModRM byte: their masks put the r/m field of the manual's table where the reg field
is.  So they match other instructions of `FF` too, and miss the CALLs through a SIB byte and those
through a bare 32-bit displacement.

* `length_eq`: the search, with the forms of `FF` by the range of the ModRM byte.
* `findsCall_iff`: for which bytes the length is that of a CALL exactly if there is one.
-/

namespace NovaProva

open X86

/-! ### The table -/

/-- `MASK`. -/
def insnMask (mask value : UInt8) : UInt16 := (mask.toUInt16 <<< 8) ||| value.toUInt16

/-- `EXACT`. -/
def insnExact (value : UInt8) : UInt16 := insnMask 0xff value

/-- `ANY`. -/
def insnAny : UInt16 := insnMask 0 0

/-- `insn_forms`: a `LENGTH`, and that many masks and values. -/
def insnForms : List (Nat × List UInt16) := [
  (5, [insnExact 0xE8, insnAny, insnAny, insnAny, insnAny]),
  -- mod=00
  (2, [insnExact 0xFF, insnMask 0xE0 0x00]),
  (3, [insnExact 0xFF, insnMask 0xF8 0x20, insnAny]),
  (6, [insnExact 0xFF, insnMask 0xF8 0x28, insnAny, insnAny, insnAny, insnAny]),
  (2, [insnExact 0xFF, insnMask 0xF0 0x30]),
  -- mod=01
  (3, [insnExact 0xFF, insnMask 0xE0 0x40, insnAny]),
  (4, [insnExact 0xFF, insnMask 0xF8 0x60, insnAny, insnAny]),
  (3, [insnExact 0xFF, insnMask 0xF8 0x68, insnAny]),
  (3, [insnExact 0xFF, insnMask 0xF0 0x70, insnAny]),
  -- mod=10
  (6, [insnExact 0xFF, insnMask 0xE0 0x80, insnAny, insnAny, insnAny, insnAny]),
  (7, [insnExact 0xFF, insnMask 0xF8 0xA0, insnAny, insnAny, insnAny, insnAny, insnAny]),
  (6, [insnExact 0xFF, insnMask 0xF8 0xA8, insnAny, insnAny, insnAny, insnAny]),
  (6, [insnExact 0xFF, insnMask 0xF0 0xB0, insnAny, insnAny, insnAny, insnAny]),
  -- mod=11
  (2, [insnExact 0xFF, insnMask 0xE0 0xC0]),
  (2, [insnExact 0xFF, insnMask 0xF8 0xE0]),
  (2, [insnExact 0xFF, insnMask 0xF8 0xE8]),
  (2, [insnExact 0xFF, insnMask 0xF0 0xF0])]

/-- The loop over the bytes of a form, from `bytep` on. -/
def formMatches (mem : UInt64 → UInt8) : List UInt16 → UInt64 → Bool
  | [],            _     => true
  | form :: forms, bytep =>
      if mem bytep &&& (form >>> 8).toUInt8 ≠ (form &&& 0xFF).toUInt8 then false
      else formMatches mem forms (bytep + 1)

/-- The loop over the forms. -/
def searchForms (mem : UInt64 → UInt8) (ra : UInt64) : List (Nat × List UInt16) → Nat
  | []                   => 0
  | (len, form) :: forms =>
      if formMatches mem form (ra - UInt64.ofNat len) then len else searchForms mem ra forms

/-- `call_instruction_length_for_ra`: 0 if no form of the table matches. -/
def callInstructionLengthForRa (mem : UInt64 → UInt8) (ra : UInt64) : Nat :=
  searchForms mem ra insnForms

/-! ### What the forms match -/

theorem toNat_insnMask (mask value : UInt8) :
    (insnMask mask value).toNat = 256 * mask.toNat + value.toNat := by
  have hmask := mask.toNat_lt
  have hor := Nat.two_pow_add_eq_or_of_lt (i := 8) value.toNat_lt mask.toNat
  simp only [insnMask, UInt16.toNat_or, UInt16.toNat_shiftLeft, UInt8.toNat_toUInt16,
    UInt16.reduceToNat, Nat.reduceMod, Nat.shiftLeft_eq]
  rw [Nat.mod_eq_of_lt (by omega), Nat.mul_comm, ← hor]

@[simp] theorem insnMask_mask (mask value : UInt8) :
    (insnMask mask value >>> 8).toUInt8 = mask := by
  have hmask := mask.toNat_lt
  have hvalue := value.toNat_lt
  apply UInt8.toNat_inj.mp
  simp only [UInt16.toNat_toUInt8, UInt16.toNat_shiftRight, toNat_insnMask, UInt16.reduceToNat,
    Nat.reduceMod, Nat.shiftRight_eq_div_pow]
  omega

@[simp] theorem insnMask_value (mask value : UInt8) :
    (insnMask mask value &&& 0xFF).toUInt8 = value := by
  have hmask := mask.toNat_lt
  have hvalue := value.toNat_lt
  apply UInt8.toNat_inj.mp
  simp only [UInt16.toNat_toUInt8, UInt16.toNat_and, toNat_insnMask, UInt16.reduceToNat]
  rw [Nat.and_two_pow_sub_one_eq_mod _ 8]
  omega

theorem formMatches_cons (mem : UInt64 → UInt8) (mask value : UInt8) (forms : List UInt16)
    (p : UInt64) : formMatches mem (insnMask mask value :: forms) p = true ↔
      mem p &&& mask = value ∧ formMatches mem forms (p + 1) = true := by
  rw [formMatches, insnMask_mask, insnMask_value]
  by_cases h : mem p &&& mask = value
  · simp [h]
  · simp [h]

theorem and_ones_byte (b : UInt8) : b &&& 0xff = b := UInt8.and_neg_one

/-- The bytes of a displacement may be any. -/
theorem formMatches_any (mem : UInt64 → UInt8) (n : Nat) (p : UInt64) :
    formMatches mem (List.replicate n insnAny) p = true := by
  induction n generalizing p with
  | zero => rfl
  | succ n ih =>
      rw [List.replicate_succ, insnAny, formMatches_cons]
      exact ⟨UInt8.and_zero, ih _⟩

section
variable (mem : UInt64 → UInt8) (ra : UInt64)

theorem matches_E8 :
    formMatches mem (insnExact 0xE8 :: List.replicate 4 insnAny) (ra - UInt64.ofNat 5) = true ↔
      byteBefore mem ra 5 = 0xE8 := by
  rw [insnExact, formMatches_cons, and_ones_byte]
  exact and_iff_left (formMatches_any mem 4 _)

/-- A form of `FF`: how many bytes follow the ModRM byte, and the range that byte is in. -/
structure FormFF where
  behind : Nat
  lo : UInt8
  hi : UInt8
  deriving DecidableEq

/-- The mask of the ModRM byte. -/
def FormFF.mask (f : FormFF) : UInt8 := ~~~(f.lo ^^^ f.hi)

/-- The form as it is in the table. -/
def FormFF.entry (f : FormFF) : Nat × List UInt16 :=
  (f.behind + 2, insnExact 0xFF :: insnMask f.mask f.lo :: List.replicate f.behind insnAny)

/-- The bytes before an address are of the form. -/
def FormFF.Matches (f : FormFF) (b : Nat → UInt8) : Prop :=
  b (f.behind + 2) = 0xFF ∧ f.lo ≤ b (f.behind + 1) ∧ b (f.behind + 1) ≤ f.hi

instance (f : FormFF) (b : Nat → UInt8) : Decidable (f.Matches b) :=
  inferInstanceAs (Decidable (_ ∧ _ ∧ _))

/-- The forms of `FF` in the table. -/
def ffForms : List FormFF := [
  ⟨0, 0x00, 0x1F⟩, ⟨1, 0x20, 0x27⟩, ⟨4, 0x28, 0x2F⟩, ⟨0, 0x30, 0x3F⟩,
  ⟨1, 0x40, 0x5F⟩, ⟨2, 0x60, 0x67⟩, ⟨1, 0x68, 0x6F⟩, ⟨1, 0x70, 0x7F⟩,
  ⟨4, 0x80, 0x9F⟩, ⟨5, 0xA0, 0xA7⟩, ⟨4, 0xA8, 0xAF⟩, ⟨4, 0xB0, 0xBF⟩,
  ⟨0, 0xC0, 0xDF⟩, ⟨0, 0xE0, 0xE7⟩, ⟨0, 0xE8, 0xEF⟩, ⟨0, 0xF0, 0xFF⟩]

theorem insnForms_eq :
    insnForms = (5, insnExact 0xE8 :: List.replicate 4 insnAny) :: ffForms.map FormFF.entry := rfl

/-- Each mask leaves a range of bytes. -/
theorem mask_iff {f : FormFF} (hf : f ∈ ffForms) (x : UInt8) :
    x &&& f.mask = f.lo ↔ f.lo ≤ x ∧ x ≤ f.hi := by
  have htable : ∀ x : UInt8, ∀ f ∈ ffForms, x &&& f.mask = f.lo ↔ f.lo ≤ x ∧ x ≤ f.hi :=
    Bytes.forall_byte (by decide +kernel)
  exact htable x f hf

theorem matches_FF {f : FormFF} (hf : f ∈ ffForms) :
    formMatches mem f.entry.2 (ra - UInt64.ofNat f.entry.1) = true ↔
      f.Matches (byteBefore mem ra) := by
  rw [FormFF.entry, insnExact, formMatches_cons, and_ones_byte, formMatches_cons,
    sub_ofNat_add_one, mask_iff hf]
  have hany := formMatches_any mem f.behind (ra - UInt64.ofNat (f.behind + 1) + 1)
  exact and_congr_right' (and_iff_left hany)

/-- The length of the first of the forms that the bytes are of. -/
def firstFF (b : Nat → UInt8) : List FormFF → Nat
  | []      => 0
  | f :: fs => if f.Matches b then f.behind + 2 else firstFF b fs

theorem searchForms_FF {fs : List FormFF} (h : ∀ f ∈ fs, f ∈ ffForms) :
    searchForms mem ra (fs.map FormFF.entry) = firstFF (byteBefore mem ra) fs := by
  induction fs with
  | nil => rfl
  | cons f fs ih =>
      have hform := matches_FF mem ra (h f List.mem_cons_self)
      rw [List.map_cons, searchForms, firstFF, ih fun g hg => h g (List.mem_cons_of_mem _ hg)]
      simp only [hform]
      rfl

/-- **The search** through the table: `E8`, and the forms of `FF` in order. -/
theorem length_eq : callInstructionLengthForRa mem ra =
    if byteBefore mem ra 5 = 0xE8 then 5 else firstFF (byteBefore mem ra) ffForms := by
  have hE8 := matches_E8 mem ra
  rw [callInstructionLengthForRa, insnForms_eq, searchForms, searchForms_FF mem ra fun f hf => hf]
  simp only [hE8]

/-! ### When the length is that of a CALL -/

/-- What the length is for: there is one exactly if a near CALL ends at the address, and then it is
the length of such a CALL. -/
structure FindsCall : Prop where
  found_iff : callInstructionLengthForRa mem ra ≠ 0 ↔ ∃ n, NearCallEnds mem ra n
  ends : callInstructionLengthForRa mem ra ≠ 0 →
    NearCallEnds mem ra (callInstructionLengthForRa mem ra)

variable {mem ra}

theorem findsCall_iff_of_pos {n : Nat} (hlen : callInstructionLengthForRa mem ra = n) (hn : n ≠ 0) :
    FindsCall mem ra ↔ CallBytes (byteBefore mem ra) n := by
  rw [← nearCallEnds_iff]
  constructor
  · intro h
    have hends := h.ends (by rwa [hlen])
    rwa [hlen] at hends
  · intro h
    refine ⟨iff_of_true (by rwa [hlen]) ⟨n, h⟩, fun _ => ?_⟩
    rwa [hlen]

theorem findsCall_iff_of_zero (hlen : callInstructionLengthForRa mem ra = 0) :
    FindsCall mem ra ↔ ∀ n, ¬ CallBytes (byteBefore mem ra) n := by
  constructor
  · intro h n hn
    exact h.found_iff.mpr ⟨n, (nearCallEnds_iff mem ra n).mpr hn⟩ hlen
  · intro h
    refine ⟨iff_of_false (not_not.mpr hlen) ?_, fun hne => absurd hlen hne⟩
    rintro ⟨n, hn⟩
    exact h n ((nearCallEnds_iff mem ra n).mp hn)

end

/-- The CALLs that the table lacks: `FF 14` with a SIB byte and perhaps a displacement, `FF 54` with
a SIB byte and one byte, `FF 15` with four, and `FF 94` with a SIB byte and four. -/
def Lacking (b : Nat → UInt8) : Prop :=
  (b 3 = 0xFF ∧ b 2 = 0x14 ∧ baseless (b 1) = false) ∨ (b 4 = 0xFF ∧ b 3 = 0x54) ∨
    (b 6 = 0xFF ∧ b 5 = 0x15) ∨ (b 7 = 0xFF ∧ b 6 = 0x14 ∧ baseless (b 5) = true) ∨
    (b 7 = 0xFF ∧ b 6 = 0x94)

/-- Of the forms of `FF`, the first that the bytes are of has the ModRM byte of a CALL of its
length; where they are of none, they are no CALL that the table lacks. -/
def TellsCallFF (b : Nat → UInt8) : List FormFF → Prop
  | []      => ¬ Lacking b
  | f :: fs =>
      if f.Matches b then
        callModRM (b (f.behind + 1)) (baseless (b f.behind)) (f.behind + 2) = true
      else TellsCallFF b fs

/-- The bytes before a return address by which it is told right whether a CALL ends there. -/
def TellsCall (b : Nat → UInt8) : Prop := b 5 = 0xE8 ∨ TellsCallFF b ffForms

section
variable {b : Nat → UInt8}

/-- Which ModRM bytes of a CALL are in the range of a form of its length, and which in none. -/
theorem callModRM_cases {x : UInt8} {sib : Bool} {n : Nat} (h : callModRM x sib n = true) :
    (n = 3 ∧ x = 0x14 ∧ sib = false) ∨ (n = 4 ∧ x = 0x54) ∨ (n = 6 ∧ x = 0x15) ∨
      (n = 7 ∧ x = 0x14 ∧ sib = true) ∨ (n = 7 ∧ x = 0x94) ∨
      ∃ f ∈ ffForms, f.behind + 2 = n ∧ f.lo ≤ x ∧ x ≤ f.hi := by
  have htable : ∀ x : UInt8, ∀ sib : Bool, ∀ n : Fin 8, callModRM x sib n = true →
      ((n : Nat) = 3 ∧ x = 0x14 ∧ sib = false) ∨ ((n : Nat) = 4 ∧ x = 0x54) ∨
        ((n : Nat) = 6 ∧ x = 0x15) ∨ ((n : Nat) = 7 ∧ x = 0x14 ∧ sib = true) ∨
        ((n : Nat) = 7 ∧ x = 0x94) ∨
        ∃ f ∈ ffForms, f.behind + 2 = n ∧ f.lo ≤ x ∧ x ≤ f.hi :=
    Bytes.forall_byte (by decide +kernel)
  have hlen := ((callModRM_iff x sib n).mp h).2
  have hle := (modRMLength_bounds x sib).2
  exact htable x sib ⟨n, by omega⟩ h

/-- Where no form matches, there may still be the CALLs that the table lacks. -/
theorem exists_callBytes_iff (hE8 : b 5 ≠ 0xE8) (hnone : ∀ f ∈ ffForms, ¬ f.Matches b) :
    (∃ n, CallBytes b n) ↔ Lacking b := by
  constructor
  · rintro ⟨n, ⟨-, h⟩ | ⟨hFF, hcall⟩⟩
    · exact absurd h hE8
    · rcases callModRM_cases hcall with ⟨rfl, h⟩ | ⟨rfl, h⟩ | ⟨rfl, h⟩ | ⟨rfl, h⟩ | ⟨rfl, h⟩ |
        ⟨f, hf, rfl, h⟩
      · exact .inl ⟨hFF, h⟩
      · exact .inr (.inl ⟨hFF, h⟩)
      · exact .inr (.inr (.inl ⟨hFF, h⟩))
      · exact .inr (.inr (.inr (.inl ⟨hFF, h⟩)))
      · exact .inr (.inr (.inr (.inr ⟨hFF, h⟩)))
      · exact absurd ⟨hFF, h⟩ (hnone f hf)
  · rintro (⟨hFF, hx, hsib⟩ | ⟨hFF, hx⟩ | ⟨hFF, hx⟩ | ⟨hFF, hx, hsib⟩ | ⟨hFF, hx⟩)
    · exact ⟨3, .inr ⟨hFF, by rw [hx, hsib]; rfl⟩⟩
    · exact ⟨4, .inr ⟨hFF, by rw [hx]; rfl⟩⟩
    · exact ⟨6, .inr ⟨hFF, by rw [hx]; rfl⟩⟩
    · exact ⟨7, .inr ⟨hFF, by rw [hx, hsib]; rfl⟩⟩
    · exact ⟨7, .inr ⟨hFF, by rw [hx]; cases baseless (b (7 - 2)) <;> rfl⟩⟩

/-- With the forms of `FF` from some place in the table on, none of those before it matching. -/
theorem findsCall_iff_tellsCallFF {mem : UInt64 → UInt8} {ra : UInt64} (hb : byteBefore mem ra = b)
    (hE8 : b 5 ≠ 0xE8) {pre fs : List FormFF} (hsplit : ffForms = pre ++ fs)
    (hpre : ∀ f ∈ pre, ¬ f.Matches b) (hlen : callInstructionLengthForRa mem ra = firstFF b fs) :
    FindsCall mem ra ↔ TellsCallFF b fs := by
  induction fs generalizing pre with
  | nil =>
      rw [List.append_nil] at hsplit
      rw [findsCall_iff_of_zero hlen, hb, TellsCallFF, ← exists_callBytes_iff hE8 (hsplit ▸ hpre),
        not_exists]
  | cons f fs ih =>
      have hf : f ∈ ffForms := hsplit ▸ List.mem_append_right pre List.mem_cons_self
      by_cases hmatch : f.Matches b
      · have hne : f.behind + 2 ≠ 5 := by
          have htable : ∀ f ∈ ffForms, f.behind + 2 ≠ 5 := by decide
          exact htable f hf
        rw [firstFF, if_pos hmatch] at hlen
        rw [findsCall_iff_of_pos hlen (Nat.succ_ne_zero _), hb, TellsCallFF, if_pos hmatch,
          CallBytes]
        simp [hne, hmatch.1]
      · rw [firstFF, if_neg hmatch] at hlen
        rw [TellsCallFF, if_neg hmatch]
        have hsplit' : ffForms = (pre ++ [f]) ++ fs := by
          rw [hsplit, List.append_assoc]
          rfl
        refine ih hsplit' ?_ hlen
        intro g hg
        rcases List.mem_append.mp hg with hg | hg
        · exact hpre g hg
        · rwa [List.mem_singleton.mp hg]

end

/-- **The length before a return address** is that of a near CALL that ends there, and 0 exactly if
none does, for the bytes by which it is told right and for no others. -/
theorem findsCall_iff (mem : UInt64 → UInt8) (ra : UInt64) :
    FindsCall mem ra ↔ TellsCall (byteBefore mem ra) := by
  have hlen := length_eq mem ra
  by_cases hE8 : byteBefore mem ra 5 = 0xE8
  · rw [if_pos hE8] at hlen
    refine iff_of_true ?_ (.inl hE8)
    exact (findsCall_iff_of_pos hlen (by decide)).mpr (.inl ⟨rfl, hE8⟩)
  · rw [if_neg hE8] at hlen
    have hFF := findsCall_iff_tellsCallFF rfl hE8 (List.nil_append ffForms).symm (by simp) hlen
    rw [hFF, TellsCall, or_iff_right hE8]

/-- `call *disp32(%rip)` at 4090, and zeros. -/
def indirectCall (a : UInt64) : UInt8 := if a = 4090 then 0xFF else if a = 4091 then 0x15 else 0

/-- The CALL through a pointer at an address of 32 bits is not found behind it. -/
theorem indirectCall_lacking : ¬ ∀ (mem : UInt64 → UInt8) (ra : UInt64), FindsCall mem ra := by
  intro hall
  have hlen : callInstructionLengthForRa indirectCall 4096 = 0 := by decide +kernel
  have hends : NearCallEnds indirectCall 4096 6 := by
    unfold NearCallEnds
    decide +kernel
  exact (hall indirectCall 4096).found_iff.mpr ⟨6, hends⟩ hlen

end NovaProva
