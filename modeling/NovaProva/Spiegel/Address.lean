import NovaProva.Dwarf.Walker
import NovaProva.Dwarf.Units
import NovaProva.Util.RangeTree

/-!
# Spiegel — The address index

`state_t::insert_ranges` and `prepare_address_index`: the ranges of the functions of all compile
units, whatever their link objects, entered into one index.  A range is entered under its recorded
addresses, and with a reference to the function into its compile unit.
-/

namespace NovaProva.Dwarf

/-! ### The ranges of a function -/

/-- `DW_TAG_subprogram`. -/
def dwTagSubprogram : Nat := 0x2e
/-- `DW_AT_low_pc`. -/
def dwAtLowPc : Nat := 0x11
/-- `DW_AT_high_pc`. -/
def dwAtHighPc : Nat := 0x12
/-- `DW_AT_ranges`. -/
def dwAtRanges : Nat := 0x55

/-- `_NP_MAXADDR`. -/
def maxAddr : Nat := 2 ^ 64 - 1

namespace Entry

/-- `get_uint64_attribute`, which has no case for `T_SINT32`. -/
def getUint64Attribute (e : Entry) (name : Nat) : Nat :=
  match e.getAttribute name with
  | some (.uint32 v) => v
  | some (.uint64 v) => v
  | _                => 0

/-- `get_attribute_form`: the form in the entry's abbreviation, 0 for none. -/
def getAttributeForm (e : Entry) (name : Nat) : Nat :=
  match ((e.abbrev?.map (·.attrSpecs)).getD []).find? (·.name = name) with
  | some i => i.form
  | none   => 0

end Entry

/-- The loop of `insert_ranges` over a list in `.debug_ranges`.  A round reads sixteen bytes, so
that the bytes of the section bound the number of rounds. -/
def readRanges : Nat → Nat → Reader → List (Range Nat)
  | 0,     _,    _ => []
  | n + 1, base, r =>
      match (do
        let start ← Read.readAddr
        let stop ← Read.readAddr
        return (start, stop) : Read (Nat × Nat)) r with
      | (none, _) => []
      | (some (start, stop), r') =>
          -- (0,0) marks the end of the list
          if start = 0 ∧ stop = 0 then []
          -- (~0,base) marks a new base address
          else if start = maxAddr then readRanges n stop r'
          else { lo := (start + base) % 2 ^ 64, hi := (stop + base) % 2 ^ 64 } ::
            readRanges n base r'

namespace Walker

/-- `walker_t::get_reference`. -/
def getReference (w : Walker) : Reference := w.compileUnit.makeReference w.entry.offset

/-- The ranges `insert_ranges` inserts for the walker's entry. -/
def insertedRanges (w : Walker) : List (Range Nat) :=
  let hasLo := (w.entry.getAttribute dwAtLowPc).isSome
  let lo := w.entry.getUint64Attribute dwAtLowPc
  let hasHi := (w.entry.getAttribute dwAtHighPc).isSome
  let hi := w.entry.getUint64Attribute dwAtHighPc
  let ranges := w.entry.getUint64Attribute dwAtRanges
  if hasLo && hasHi then
    -- in DWARF-4 the end is relative to the start unless it is an address
    if w.compileUnit.version = 4 ∧ w.entry.getAttributeForm dwAtHighPc ≠ Form.addr.code then
      [{ lo := lo, hi := (hi + lo) % 2 ^ 64 }]
    else [{ lo := lo, hi := hi }]
  else if ranges ≠ 0 then
    let r := (Read.skip ranges (w.compileUnit.linkObject.getSection .ranges).getContents).2
    readRanges (r.rest.length + 1) 0 r
  else if hasLo then [.point lo]
  else []

/-- The loop of `prepare_address_index` over the functions of a compile unit. -/
def unitRanges : Nat → Walker → Except Stop (List (Range Nat × Reference))
  | 0,     _ => .error .outOfFuel
  | n + 1, w =>
      match movePreorder (n + 1) w with
      | .error e       => .error e
      | .ok (false, _) => .ok []
      | .ok (true, w') =>
          match unitRanges n w' with
          | .error e => .error e
          | .ok rs   => .ok (w'.insertedRanges.map (fun r => (r, w'.getReference)) ++ rs)

end Walker

/-- A range of a function, with the link object it is recorded in. -/
structure Recorded where
  linkObject : Nat
  range : Range Nat
  function : Reference
  deriving DecidableEq

/-- The ranges of the functions of all compile units, in the order they are inserted. -/
def recordedRanges (fuel : Nat) : List CompileUnit → Except Stop (List Recorded)
  | []        => .ok []
  | cu :: cus =>
      match ((Walker.ofUnit cu).setFilterTag dwTagSubprogram).unitRanges fuel with
      | .error e => .error e
      | .ok rs   =>
          match recordedRanges fuel cus with
          | .error e => .error e
          | .ok recs => .ok (rs.map (fun r =>
              { linkObject := cu.linkObject.id, range := r.1, function := r.2 }) ++ recs)

/-- The index after inserting the ranges. -/
def addressIndexOf (recs : List Recorded) : RangeTree Nat Reference :=
  .insertAll (recs.map fun r => (r.range, r.function))

/-- `prepare_address_index`. -/
def prepareAddressIndex (fuel : Nat) (cus : List CompileUnit) :
    Except Stop (RangeTree Nat Reference) :=
  (recordedRanges fuel cus).map addressIndexOf

/-! ### Where the ranges come from -/

/-- The functions of a compile unit are referred to by the unit. -/
theorem Walker.unitRanges_resolver {n : Nat} {w : Walker} {rs : List (Range Nat × Reference)}
    (h : w.unitRanges n = .ok rs) :
    ∀ r ∈ rs, r.2.resolver = .compileUnit w.compileUnit.index := by
  induction n generalizing w rs with
  | zero => cases h
  | succ n ih =>
      rw [unitRanges] at h
      split at h
      · cases h
      · cases h
        intro r hr
        cases hr
      next w' hmove =>
        have hkeep := movePreorder_compileUnit hmove
        split at h
        · cases h
        next rest hrest =>
          cases h
          intro r hr
          rcases List.mem_append.mp hr with hr | hr
          · obtain ⟨range, -, rfl⟩ := List.mem_map.mp hr
            exact congrArg (fun cu => Resolver.compileUnit cu.index) hkeep
          · rw [← hkeep]
            exact ih hrest r hr

/-- A recorded range is that of a function of one of the compile units. -/
theorem exists_unit_of_recorded {fuel : Nat} {cus : List CompileUnit} {recs : List Recorded}
    (h : recordedRanges fuel cus = .ok recs) {e : Recorded} (he : e ∈ recs) :
    ∃ cu ∈ cus, e.linkObject = cu.linkObject.id ∧ e.function.resolver = .compileUnit cu.index := by
  induction cus generalizing recs with
  | nil =>
      cases h
      cases he
  | cons cu cus ih =>
      rw [recordedRanges] at h
      split at h
      · cases h
      next rs hrs =>
        split at h
        · cases h
        next rest hrest =>
          cases h
          rcases List.mem_append.mp he with he | he
          · obtain ⟨r, hr, rfl⟩ := List.mem_map.mp he
            exact ⟨cu, List.mem_cons_self, rfl, Walker.unitRanges_resolver hrs r hr⟩
          · obtain ⟨c, hc, hboth⟩ := ih hrest he
            exact ⟨c, List.mem_cons_of_mem _ hc, hboth⟩

/-! ### What the index finds -/

/-- No address is recorded by two units, and every address recorded is in a range that is kept: one
that has no address in common with a range kept before it. -/
structure Indexable (recs : List Recorded) : Prop where
  apart : ∀ e ∈ recs, ∀ f ∈ recs, e.function.resolver ≠ f.function.resolver →
    ∀ x, e.range.Covers x → ¬ f.range.Covers x
  kept : ∀ e ∈ recs, ∀ x, e.range.Covers x →
    ∃ k ∈ RangeTree.kept (recs.map (·.range)), k.Covers x

/-- What the index finds is a function whose range has an address in common with a range that has
the address. -/
theorem exists_of_find_addressIndexOf {recs : List Recorded} {x : Nat} {d : Range Nat × Reference}
    (h : (addressIndexOf recs).find x = some d) :
    ∃ f ∈ recs, d.2 = f.function ∧ ∃ y, d.1.Covers y ∧ f.range.Covers y := by
  obtain ⟨-, i, hi, hval, hy⟩ := RangeTree.exists_of_find_insertAll h
  obtain ⟨f, hf, rfl⟩ := List.mem_map.mp hi
  exact ⟨f, hf, hval, hy⟩

/-- **The index leads to the units** from every address of every range exactly if it is
`Indexable`. -/
theorem find_addressIndexOf_iff (recs : List Recorded) :
    (∀ e ∈ recs, ∀ x, e.range.Covers x →
        ∃ d, (addressIndexOf recs).find x = some d ∧ d.2.resolver = e.function.resolver) ↔
      Indexable recs := by
  have hkept : ∀ x, _ := RangeTree.find_insertAll_kept
    (recs.map fun r => (r.range, r.function))
  simp only [List.map_map] at hkept
  constructor
  · intro hfind
    refine ⟨fun e he f hf hne x hxe hxf => ?_, fun e he x hx => ?_⟩
    · obtain ⟨d, hd, hres⟩ := hfind e he x hxe
      obtain ⟨d', hd', hres'⟩ := hfind f hf x hxf
      rw [hd] at hd'
      cases hd'
      exact hne (hres.symm.trans hres')
    · by_contra hno
      push Not at hno
      obtain ⟨d, hd, -⟩ := hfind e he x hx
      rw [addressIndexOf, (hkept x).2 hno] at hd
      cases hd
  · intro h e he x hx
    obtain ⟨k, hk, hkx⟩ := h.kept e he x hx
    obtain ⟨v, hv⟩ := (hkept x).1 k hk hkx
    refine ⟨(k, v), hv, ?_⟩
    -- the range that is kept is of the unit of both functions
    obtain ⟨g, hg, rfl⟩ := List.mem_map.mp (RangeTree.mem_of_mem_kept hk)
    obtain ⟨f, hf, hval, y, hyg, hyf⟩ := exists_of_find_addressIndexOf hv
    have hgf : g.function.resolver = f.function.resolver := by
      by_contra hne
      exact h.apart g hg f hf hne y hyg hyf
    have hge : g.function.resolver = e.function.resolver := by
      by_contra hne
      exact h.apart g hg e he hne x hkx hx
    exact (congrArg Reference.resolver hval).trans (hgf.symm.trans hge)

/-! ### An object with one function -/

/-- Abbreviations for a `DW_TAG_compile_unit` with children and for a `DW_TAG_subprogram` with a
`DW_AT_low_pc` and a `DW_AT_high_pc`. -/
def pcAbbrevs : List AbbrevDecl :=
  [{ code := .byte 1, tag := .byte 0x11, children := true, specs := [] },
    { code := .byte 2, tag := .byte 0x2e, children := false
      specs := [(.byte 0x11, .byte 0x01), (.byte 0x12, .byte 0x06)] }]

/-- A unit with one function, of 256 bytes. -/
def functionTree (pc : UInt64) : Tree where
  root := { code := .byte 1, operands := [] }
  children := .cons { code := .byte 2, operands := [.addr pc, .data4 256] } .nil .nil

theorem length_functionTree (pc : UInt64) :
    ((functionTree pc).body .four pcAbbrevs).length = 15 := by
  rfl

/-- Their unit in version 4. -/
def functionUnit (pc : UInt64) : Unit32 :=
  .ofBody .four ((functionTree pc).body .four pcAbbrevs) Format.four_is64 (by
    rw [length_functionTree]
    decide)

/-- A link object with that unit, the `id`-th of several loaded one behind the other. -/
def functionObject (id : Nat) (pc : UInt64) : LinkObject :=
  .ofSections id (0x10000 * (id + 1))
    ⟨4096, (functionUnit pc).encode, by
      have hlt := (functionUnit pc).length_lt
      rw [Unit32.length_encode]
      omega⟩
    ⟨8192, encodeTable pcAbbrevs, by decide⟩

end NovaProva.Dwarf
