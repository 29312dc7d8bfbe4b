import NovaProva.Spiegel.Address

/-!
# Spiegel — The search without the index

`state_t::is_within`, the test `describe_address` makes of every entry while there is no index.  It
was written beside `insert_ranges`, from the same three attributes, and differs from it: the end of
a function counts as in it and is never taken as relative to the start, the offset into a range
list is from the base address and not from the start of the range, and an entry whose ranges do not
have the address may still have it as its `DW_AT_low_pc`.  And every range of a list is looked at,
where the index keeps none that overlaps one it has (`isWithin_agrees_iff`).
-/

namespace NovaProva.Dwarf

/-! ### The model -/

/-- `addr - start` as an `unsigned int`. -/
def offsetFrom (addr start : Nat) : Nat := (addr + (2 ^ 64 - start)) % 2 ^ 64 % 2 ^ 32

/-- Two addresses of a list in `.debug_ranges`. -/
def readPair : Read (Nat × Nat) := do
  let start ← Read.readAddr
  let stop ← Read.readAddr
  return (start, stop)

/-- The loop of `is_within` over a list in `.debug_ranges`; the offset if a range has `addr`. -/
def searchRanges (addr : Nat) : Nat → Nat → Reader → Option Nat
  | 0,     _,    _ => none
  | n + 1, base, r =>
      match readPair r with
      | (none, _) => none
      | (some (start, stop), r') =>
          -- (0,0) marks the end of the list
          if start = 0 ∧ stop = 0 then none
          -- (~0,base) marks a new base address
          else if start = maxAddr then searchRanges addr n stop r'
          else if addr ≥ (start + base) % 2 ^ 64 ∧ addr < (stop + base) % 2 ^ 64 then
            some (offsetFrom addr base)
          else searchRanges addr n base r'

namespace Walker

/-- The reader of the list `DW_AT_ranges` names. -/
def rangesReader (w : Walker) : Reader :=
  (Read.skip (w.entry.getUint64Attribute dwAtRanges)
    (w.compileUnit.linkObject.getSection .ranges).getContents).2

/-- `is_within`: the offset, or `none` for `false`. -/
def isWithin (addr : Nat) (w : Walker) : Option Nat :=
  let hasLo := (w.entry.getAttribute dwAtLowPc).isSome
  let lo := w.entry.getUint64Attribute dwAtLowPc
  let hasHi := (w.entry.getAttribute dwAtHighPc).isSome
  let hi := w.entry.getUint64Attribute dwAtHighPc
  let ranges := w.entry.getUint64Attribute dwAtRanges
  if hasLo && hasHi then
    if addr ≥ lo ∧ addr ≤ hi then some (offsetFrom addr lo) else none
  else
    let found :=
      if ranges ≠ 0 then
        searchRanges addr (w.rangesReader.rest.length + 1) 0 w.rangesReader
      else none
    match found with
    | some offset => some offset
    | none        =>
        if hasLo then
          if addr = lo then some 0 else none
        else none

end Walker

/-! ### Range lists -/

/-- The ranges of a list in `.debug_ranges`, each with the base address it is relative to. -/
def basedRanges : Nat → Nat → Reader → List (Nat × Range Nat)
  | 0,     _,    _ => []
  | n + 1, base, r =>
      match readPair r with
      | (none, _) => []
      | (some (start, stop), r') =>
          if start = 0 ∧ stop = 0 then []
          else if start = maxAddr then basedRanges n stop r'
          else (base, { lo := (start + base) % 2 ^ 64, hi := (stop + base) % 2 ^ 64 }) ::
            basedRanges n base r'

/-- `insert_ranges` inserts these ranges. -/
theorem readRanges_eq (n base : Nat) (r : Reader) :
    readRanges n base r = (basedRanges n base r).map Prod.snd := by
  induction n generalizing base r with
  | zero => rfl
  | succ n ih =>
      rw [readRanges, basedRanges]
      change (match readPair r with | (none, _) => _ | (some (start, stop), r') => _) = _
      cases readPair r with
      | mk pair r' =>
          cases pair with
          | none => rfl
          | some q =>
              dsimp only
              split
              · rfl
              · split
                · exact ih _ _
                · rw [ih, List.map_cons]

/-- `is_within` looks for the first of them that contains the address. -/
theorem searchRanges_eq (addr n base : Nat) (r : Reader) :
    searchRanges addr n base r =
      ((basedRanges n base r).find? fun p => p.2.lo ≤ addr ∧ addr < p.2.hi).map
        fun p => offsetFrom addr p.1 := by
  induction n generalizing base r with
  | zero => rfl
  | succ n ih =>
      rw [searchRanges, basedRanges]
      cases readPair r with
      | mk pair r' =>
          cases pair with
          | none => rfl
          | some q =>
              dsimp only
              split
              · rfl
              · split
                · exact ih _ _
                · by_cases hin : (q.1 + base) % 2 ^ 64 ≤ addr ∧ addr < (q.2 + base) % 2 ^ 64
                  · rw [if_pos hin, List.find?_cons_of_pos (by simpa using hin)]
                    rfl
                  · rw [if_neg hin, List.find?_cons_of_neg (by simpa using hin), ih]

theorem readPair_lt {r r' : Reader} {q : Nat × Nat} (h : readPair r = (some q, r')) :
    q.1 < 2 ^ 64 ∧ q.2 < 2 ^ 64 := by
  obtain ⟨start, r₁, hstart, hrest⟩ := Read.bind_eq_some h
  obtain ⟨stop, r₂, hstop, hend⟩ := Read.bind_eq_some hrest
  cases hend
  exact ⟨Read.lt_of_readLe hstart, Read.lt_of_readLe hstop⟩

/-- Base addresses and the starts of ranges are addresses. -/
theorem basedRanges_lt {n base : Nat} {r : Reader} (hb : base < 2 ^ 64) :
    ∀ p ∈ basedRanges n base r, p.1 < 2 ^ 64 ∧ p.2.lo < 2 ^ 64 := by
  induction n generalizing base r with
  | zero =>
      intro p hp
      cases hp
  | succ n ih =>
      intro p hp
      rw [basedRanges] at hp
      split at hp
      · cases hp
      next start stop r' hpair =>
        obtain ⟨-, hstop⟩ := readPair_lt hpair
        split at hp
        · cases hp
        · split at hp
          · exact ih hstop p hp
          · rcases List.mem_cons.mp hp with rfl | hp
            · exact ⟨hb, Nat.mod_lt _ (Nat.two_pow_pos 64)⟩
            · exact ih hb p hp

/-- Offsets from two addresses are the same if these are, modulo `2 ^ 32`. -/
theorem offsetFrom_eq_iff {a b c : Nat} (hb : b < 2 ^ 64) (hc : c < 2 ^ 64) :
    offsetFrom a b = offsetFrom a c ↔ b % 2 ^ 32 = c % 2 ^ 32 := by
  unfold offsetFrom
  omega

/-! ### Both of them -/

namespace Walker

variable {w : Walker} {a : Nat}

/-- The end of the range `insert_ranges` inserts for a `DW_AT_low_pc` and a `DW_AT_high_pc`. -/
def insertedEnd (w : Walker) : Nat :=
  if w.compileUnit.version = 4 ∧ w.entry.getAttributeForm dwAtHighPc ≠ Form.addr.code then
    (w.entry.getUint64Attribute dwAtHighPc + w.entry.getUint64Attribute dwAtLowPc) % 2 ^ 64
  else w.entry.getUint64Attribute dwAtHighPc

/-- The ranges of the list `DW_AT_ranges` names. -/
def rangesOf (w : Walker) : List (Nat × Range Nat) :=
  basedRanges (w.rangesReader.rest.length + 1) 0 w.rangesReader

/-- The index with the ranges `insert_ranges` inserts for the entry alone. -/
def entryIndex (w : Walker) : RangeTree Nat Reference :=
  .insertAll (w.insertedRanges.map fun r => (r, w.getReference))

/-- `is_within` says of `a` what `describe_address` makes of the entry's index: the offset from the
start of the range that is found, if one is. -/
def IndexAgrees (w : Walker) (a : Nat) : Prop :=
  isWithin a w = (w.entryIndex.find a).map fun e => offsetFrom a e.1.lo

/-- What it takes: with both ends, that neither the last address nor a relative end makes a
difference; with a range list, that the base address is the start of the kept range with `a`, modulo
`2 ^ 32`, or else that `a` is the `DW_AT_low_pc` exactly if an empty range that is kept starts
there. -/
def WithinAlike (w : Walker) (a : Nat) : Prop :=
  let hasLo := (w.entry.getAttribute dwAtLowPc).isSome
  let lo := w.entry.getUint64Attribute dwAtLowPc
  let hasHi := (w.entry.getAttribute dwAtHighPc).isSome
  let hi := w.entry.getUint64Attribute dwAtHighPc
  if hasLo && hasHi then
    a < lo ∨ (a = lo ∧ lo ≤ hi) ∨ (lo < a ∧ (a ≤ hi ↔ a < w.insertedEnd))
  else if w.entry.getUint64Attribute dwAtRanges ≠ 0 then
    match w.rangesOf.find? fun p => p.2.lo ≤ a ∧ a < p.2.hi with
    | some p => ∃ r ∈ RangeTree.kept w.insertedRanges, r.Covers a ∧ p.1 % 2 ^ 32 = r.lo % 2 ^ 32
    | none   => (hasLo ∧ a = lo) ↔ ∃ r ∈ RangeTree.kept w.insertedRanges, r.lo = a
  else True

/-- The index finds the range that has the address, of those that are kept. -/
theorem find_entryIndex (w : Walker) (a : Nat) :
    (∀ r ∈ RangeTree.kept w.insertedRanges, r.Covers a →
        ∃ v, w.entryIndex.find a = some (r, v)) ∧
      ((∀ r ∈ RangeTree.kept w.insertedRanges, ¬ r.Covers a) → w.entryIndex.find a = none) := by
  have hfind := RangeTree.find_insertAll_kept
    (w.insertedRanges.map fun r => (r, w.getReference)) a
  have hkeys : (w.insertedRanges.map fun r => (r, w.getReference)).map Prod.fst =
      w.insertedRanges := by
    rw [List.map_map]
    exact List.map_id _
  rwa [hkeys] at hfind

theorem indexAgrees_some {offset : Nat} (h : isWithin a w = some offset) :
    IndexAgrees w a ↔
      ∃ r ∈ RangeTree.kept w.insertedRanges, r.Covers a ∧ offset = offsetFrom a r.lo := by
  obtain ⟨hfound, hnone⟩ := find_entryIndex w a
  rw [IndexAgrees, h]
  constructor
  · intro hagrees
    by_contra hno
    push Not at hno
    by_cases hex : ∃ r ∈ RangeTree.kept w.insertedRanges, r.Covers a
    · obtain ⟨r, hr, hcovers⟩ := hex
      obtain ⟨v, hv⟩ := hfound r hr hcovers
      rw [hv] at hagrees
      exact hno r hr hcovers (Option.some.inj hagrees)
    · push Not at hex
      rw [hnone hex] at hagrees
      cases hagrees
  · rintro ⟨r, hr, hcovers, rfl⟩
    obtain ⟨v, hv⟩ := hfound r hr hcovers
    rw [hv]
    rfl

theorem indexAgrees_none (h : isWithin a w = none) :
    IndexAgrees w a ↔ ∀ r ∈ RangeTree.kept w.insertedRanges, ¬ r.Covers a := by
  obtain ⟨hfound, hnone⟩ := find_entryIndex w a
  rw [IndexAgrees, h]
  constructor
  · intro hagrees r hr hcovers
    obtain ⟨v, hv⟩ := hfound r hr hcovers
    rw [hv] at hagrees
    cases hagrees
  · intro hno
    rw [hnone hno]
    rfl

/-- With both ends. -/
theorem indexAgrees_both (hboth : ((w.entry.getAttribute dwAtLowPc).isSome &&
      (w.entry.getAttribute dwAtHighPc).isSome) = true) :
    IndexAgrees w a ↔ WithinAlike w a := by
  have hranges : RangeTree.kept w.insertedRanges =
      [{ lo := w.entry.getUint64Attribute dwAtLowPc, hi := w.insertedEnd }] := by
    have hone : w.insertedRanges =
        [{ lo := w.entry.getUint64Attribute dwAtLowPc, hi := w.insertedEnd }] := by
      rw [insertedRanges, insertedEnd, if_pos hboth]
      split
      · rfl
      · rfl
    rw [hone]
    rfl
  rw [WithinAlike, if_pos hboth]
  by_cases hin : a ≥ w.entry.getUint64Attribute dwAtLowPc ∧
      a ≤ w.entry.getUint64Attribute dwAtHighPc
  · have hwithin : isWithin a w = some (offsetFrom a (w.entry.getUint64Attribute dwAtLowPc)) := by
      rw [isWithin, if_pos hboth, if_pos hin]
    rw [indexAgrees_some hwithin, hranges]
    simp only [List.mem_singleton, exists_eq_left, Range.Covers, Range.Contains, and_true]
    omega
  · have hwithin : isWithin a w = none := by
      rw [isWithin, if_pos hboth, if_neg hin]
    rw [indexAgrees_none hwithin, hranges]
    simp only [List.mem_singleton, forall_eq, Range.Covers, Range.Contains]
    omega

section
variable (hboth : ((w.entry.getAttribute dwAtLowPc).isSome &&
  (w.entry.getAttribute dwAtHighPc).isSome) ≠ true)
include hboth

theorem isWithin_of_find {p : Nat × Range Nat} (hzero : w.entry.getUint64Attribute dwAtRanges ≠ 0)
    (hfind : w.rangesOf.find? (fun p => p.2.lo ≤ a ∧ a < p.2.hi) = some p) :
    isWithin a w = some (offsetFrom a p.1) := by
  have hsearch : searchRanges a (w.rangesReader.rest.length + 1) 0 w.rangesReader =
      some (offsetFrom a p.1) := by
    rw [searchRanges_eq]
    exact congrArg (Option.map fun p => offsetFrom a p.1) hfind
  rw [isWithin, if_neg hboth, if_pos hzero, hsearch]

/-- What no range contains may still be the `DW_AT_low_pc`. -/
theorem isWithin_of_find_none (hzero : w.entry.getUint64Attribute dwAtRanges ≠ 0)
    (hfind : w.rangesOf.find? (fun p => p.2.lo ≤ a ∧ a < p.2.hi) = none) :
    isWithin a w = if (w.entry.getAttribute dwAtLowPc).isSome = true ∧
      a = w.entry.getUint64Attribute dwAtLowPc then some 0 else none := by
  have hsearch : searchRanges a (w.rangesReader.rest.length + 1) 0 w.rangesReader = none := by
    rw [searchRanges_eq]
    exact congrArg (Option.map fun p => offsetFrom a p.1) hfind
  rw [isWithin, if_neg hboth, if_pos hzero, hsearch]
  exact (ite_and ..).symm

theorem insertedRanges_of_ranges (hzero : w.entry.getUint64Attribute dwAtRanges ≠ 0) :
    w.insertedRanges = w.rangesOf.map Prod.snd := by
  rw [insertedRanges, if_neg hboth, if_pos hzero]
  exact readRanges_eq _ _ _

/-- With a range list. -/
theorem indexAgrees_ranges (hzero : w.entry.getUint64Attribute dwAtRanges ≠ 0) :
    IndexAgrees w a ↔ WithinAlike w a := by
  have hranges := insertedRanges_of_ranges hboth hzero
  have hlt : ∀ p ∈ w.rangesOf, p.1 < 2 ^ 64 ∧ p.2.lo < 2 ^ 64 :=
    basedRanges_lt (Nat.two_pow_pos 64)
  have hkept : ∀ r ∈ RangeTree.kept w.insertedRanges, ∃ p ∈ w.rangesOf, p.2 = r := by
    intro r hr
    have hmem := RangeTree.mem_of_mem_kept hr
    rw [hranges] at hmem
    exact List.mem_map.mp hmem
  rw [WithinAlike, if_neg hboth, if_pos hzero]
  cases hfind : w.rangesOf.find? fun p => p.2.lo ≤ a ∧ a < p.2.hi with
  | some p =>
      have hp := List.mem_of_find?_eq_some hfind
      rw [indexAgrees_some (isWithin_of_find hboth hzero hfind)]
      refine exists_congr fun r => and_congr_right fun hr => and_congr_right fun _ => ?_
      obtain ⟨q, hq, rfl⟩ := hkept r hr
      exact offsetFrom_eq_iff (hlt p hp).1 (hlt q hq).2
  | none =>
      -- no range contains the address, so what has it is an empty one that starts there
      have hcovers : ∀ r ∈ RangeTree.kept w.insertedRanges, r.Covers a ↔ r.lo = a := by
        intro r hr
        obtain ⟨q, hq, rfl⟩ := hkept r hr
        have hnot : ¬ q.2.Contains a := by
          simpa [Range.Contains] using List.find?_eq_none.mp hfind q hq
        rw [Range.Covers, or_iff_left hnot]
        exact eq_comm
      by_cases hlow : (w.entry.getAttribute dwAtLowPc).isSome = true ∧
          a = w.entry.getUint64Attribute dwAtLowPc
      · have hwithin : isWithin a w = some 0 := by
          rw [isWithin_of_find_none hboth hzero hfind, if_pos hlow]
        rw [indexAgrees_some hwithin, iff_true_left hlow]
        refine exists_congr fun r => and_congr_right fun hr => ?_
        rw [hcovers r hr]
        refine and_iff_left_of_imp fun heq => ?_
        obtain ⟨q, hq, rfl⟩ := hkept r hr
        have hq64 := (hlt q hq).2
        rw [heq] at hq64 ⊢
        unfold offsetFrom
        omega
      · have hwithin : isWithin a w = none := by
          rw [isWithin_of_find_none hboth hzero hfind, if_neg hlow]
        rw [indexAgrees_none hwithin, iff_false_left hlow]
        push Not
        exact forall₂_congr fun r hr => not_congr (hcovers r hr)

/-- With one address or none: both say the same of every address. -/
theorem indexAgrees_point (ha : a < 2 ^ 64) (hzero : w.entry.getUint64Attribute dwAtRanges = 0) :
    IndexAgrees w a := by
  have hwithin : isWithin a w = if (w.entry.getAttribute dwAtLowPc).isSome = true then
      if a = w.entry.getUint64Attribute dwAtLowPc then some 0 else none else none := by
    rw [isWithin, if_neg hboth, if_neg (not_not.mpr hzero)]
  have hranges : w.insertedRanges = if (w.entry.getAttribute dwAtLowPc).isSome = true then
      [.point (w.entry.getUint64Attribute dwAtLowPc)] else [] := by
    rw [insertedRanges, if_neg hboth, if_neg (not_not.mpr hzero)]
  by_cases hlo : (w.entry.getAttribute dwAtLowPc).isSome = true
  · rw [if_pos hlo] at hwithin hranges
    have hkept : RangeTree.kept w.insertedRanges =
        [.point (w.entry.getUint64Attribute dwAtLowPc)] := by
      rw [hranges]
      rfl
    by_cases heq : a = w.entry.getUint64Attribute dwAtLowPc
    · rw [if_pos heq] at hwithin
      rw [indexAgrees_some hwithin, hkept]
      refine ⟨_, List.mem_singleton_self _, .inl heq, ?_⟩
      change 0 = offsetFrom a (w.entry.getUint64Attribute dwAtLowPc)
      rw [← heq, offsetFrom]
      omega
    · rw [if_neg heq] at hwithin
      rw [indexAgrees_none hwithin, hkept]
      intro r hr hcovers
      obtain rfl := List.mem_singleton.mp hr
      rcases hcovers with hpoint | ⟨hle, hlt⟩
      · exact heq hpoint
      · exact absurd hlt (Nat.not_lt.mpr hle)
  · rw [if_neg hlo] at hwithin hranges
    rw [indexAgrees_none hwithin, hranges]
    exact fun r hr => absurd hr List.not_mem_nil

end

/-- **The search and the index.**  Of an address `is_within` says what the index of the entry's
ranges says, exactly if `WithinAlike`. -/
theorem isWithin_agrees_iff (w : Walker) {a : Nat} (ha : a < 2 ^ 64) :
    IndexAgrees w a ↔ WithinAlike w a := by
  by_cases hboth : ((w.entry.getAttribute dwAtLowPc).isSome &&
      (w.entry.getAttribute dwAtHighPc).isSome) = true
  · exact indexAgrees_both hboth
  · by_cases hzero : w.entry.getUint64Attribute dwAtRanges = 0
    · refine iff_of_true (indexAgrees_point hboth ha hzero) ?_
      rw [WithinAlike, if_neg hboth, if_neg (not_not.mpr hzero)]
      trivial
    · exact indexAgrees_ranges hboth hzero

/-- A function with an address for its start and a number of four bytes for its end. -/
def lengthAbbrev : Abbrev :=
  { code := 1
    tag := dwTagSubprogram
    children := 0
    attrSpecs := [⟨dwAtLowPc, Form.addr.code⟩, ⟨dwAtHighPc, Form.data4.code⟩] }

/-- At such a function, from 4096 on. -/
def atFunction (version hi : Nat) : Walker :=
  { compileUnit := { index := 0, linkObject := functionObject 0 4096, version := version }
    reader := .null
    entry := ((({} : Entry).setup 11 1 lengthAbbrev).addAttribute dwAtLowPc
      (.uint64 4096)).addAttribute dwAtHighPc (.uint32 hi) }

/-- Of the second address of a function of version 4 that is 256 bytes long `is_within` says that it
is not in it: it takes the length for the end. -/
theorem isWithin_not_relative : ¬ ∀ (w : Walker) (a : Nat), a < 2 ^ 64 → IndexAgrees w a := by
  intro hall
  have hagrees := hall (atFunction 4 256) 4097 (by decide)
  exact absurd hagrees (by unfold IndexAgrees; decide)

/-- In version 3 the same number is the end. -/
theorem isWithin_agrees_version_three :
    IndexAgrees (atFunction 3 4352) 4100 ∧ isWithin 4100 (atFunction 3 4352) = some 4 := by
  refine ⟨(isWithin_agrees_iff (atFunction 3 4352) (by decide)).mpr ?_, by decide⟩
  rw [WithinAlike, if_pos (by decide)]
  exact .inr (.inr ⟨by decide, by decide⟩)

end Walker

end NovaProva.Dwarf
