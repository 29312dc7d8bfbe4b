import NovaProva.Dwarf.Rows
import NovaProva.Spiegel.Signature
import NovaProva.Spiegel.Within

/-!
# Spiegel — Addresses

`describe_address`: from a live address to the function it is in.  The address is first looked up in
the index of the link objects' mappings and taken back by the slide of the one found; what that
gives, the address recorded in the debugging information, is looked up in one index of the ranges of
all functions of all link objects, and in the line number program of the compile unit of the
function found.  Two link objects may have recorded the same addresses, and the index does not tell
them apart (`describeAddress_resolves_iff`).

While nothing is indexed, the entries of all compile units are searched instead.
-/

namespace NovaProva.Dwarf

open Walker

/-! ### From a live address to the one recorded -/

/-- The ranges `add_self` inserts for the mappings of the link objects. -/
def liveRanges (los : List (LinkObject × List Mapping)) : List (Range Nat × LinkObject) :=
  los.flatMap fun p => p.2.map fun m => ({ lo := m.map, hi := (m.map + m.size) % 2 ^ 64 }, p.1)

/-- `link_object_index_` as `add_self` makes it. -/
def linkObjectIndexOf (los : List (LinkObject × List Mapping)) : RangeTree Nat LinkObject :=
  .insertAll (liveRanges los)

/-- `link_object_t::recorded_address`: the slide is taken off. -/
def LinkObject.recordedAddress (lo : LinkObject) (addr : Nat) : Nat :=
  if addr ≠ 0 then (addr + (2 ^ 64 - lo.slide)) % 2 ^ 64 else addr

/-- `state_t::recorded_address`; an address of no link object stays as it is. -/
def LoadState.recordedAddress (s : LoadState) (addr : Nat) : Nat :=
  match s.linkObjectIndex.find addr with
  | some i => i.2.recordedAddress addr
  | none   => addr

/-! ### The search -/

/-- The outputs of `dwarf::state_t::describe_address`. -/
structure Described where
  curef : Reference := .null
  funcref : Reference := .null
  offset : Nat := 0

/-- `DW_TAG_namespace_type`. -/
def dwTagNamespaceType : Nat := 0x39

/-- The tags of entries that the search moves down from. -/
def isSearched (tag : Nat) : Bool :=
  tag = dwTagCompileUnit || tag = dwTagClassType || tag = dwTagStructureType ||
    tag = dwTagUnionType || tag = dwTagNamespaceType

section
variable (cus : List CompileUnit) (addr : Nat)

/-- The walker moved to the specification of its entry, if it has one; whether there is an entry is
not looked at. -/
def Walker.atSpecification (w : Walker) : Except MoveError Walker :=
  if (w.entry.getAttribute dwAtSpecification).isSome then
    (moveTo cus (w.entry.getReferenceAttribute dwAtSpecification) w).map Prod.snd
  else .ok w

/-- The loop of `describe_address` over the entries of a compile unit, from the one the walker is at
if `found`: whether it returned, and what it has described.  The fuel bounds the rounds. -/
def searchEntries : Nat → Bool → Walker → Described → Except MoveError (Bool × Described)
  | 0,     _,     _, _ => .error .outOfFuel
  | _ + 1, false, _, d => .ok (false, d)
  | n + 1, true,  w, d =>
      match isWithin addr w with
      | none => do
          let next ← moveNext cus n w
          searchEntries n next.1 next.2 d
      | some offset =>
          if w.entry.getTag = dwTagSubprogram then do
            let w' ← w.atSpecification cus
            return (true, { d with funcref := w'.getReference, offset := offset })
          else if isSearched w.entry.getTag then do
            -- the loop moves on from the first child, which is not looked at
            let down ← moveDown w
            let next ← moveNext cus n down.2
            searchEntries n next.1 next.2 {
              d with
              curef := if w.entry.getTag = dwTagCompileUnit then w.getReference else d.curef
              offset := offset }
          else do
            let next ← moveNext cus n w
            searchEntries n next.1 next.2 { d with offset := offset }

/-- The loop over the compile units; `none` for `false`. -/
def searchUnits (fuel : Nat) : List CompileUnit → Described → Except MoveError (Option Described)
  | [],        _ => .ok none
  | cu :: rest, d => do
      let first ← cu.rootWalker.moveNext cus fuel
      let res ← searchEntries cus addr fuel first.1 first.2 d
      if res.1 then return some res.2 else searchUnits fuel rest res.2

end

/-! ### From the recorded address to a function -/

/-- `location_t`; a function is the reference it was made from. -/
structure Location where
  compileUnit : Nat
  source : SourceLine
  function : Reference
  offset : Nat

/-- Why `describe_address` does not return. -/
inductive DescribeError where
  /-- the search does not -/
  | move (e : MoveError)
  /-- the assertion -/
  | noCompileUnit
  /-- `get_source_line` does not -/
  | crash (c : Crash)

namespace LoadState

/-- `dwarf::state_t::describe_address`; `none` for `false`. -/
def describe (fuel : Nat) (s : LoadState) (addr : Nat) : Except MoveError (Option Described) :=
  if s.addressIndex.size ≠ 0 then
    .ok ((s.addressIndex.find addr).map fun i =>
      { funcref := i.2, offset := (addr + (2 ^ 64 - i.1.lo)) % 2 ^ 64 % 2 ^ 32 })
  else
    searchUnits (s.compileUnits.map LoadedUnit.unit) addr fuel
      (s.compileUnits.map LoadedUnit.unit) {}

/-- The compile unit `reference_t::resolve` finds. -/
def resolve (s : LoadState) (ref : Reference) : Option LoadedUnit :=
  (resolveReference (s.compileUnits.map LoadedUnit.unit) ref).bind fun res =>
    s.compileUnits.find? (·.unit.index = res.1.index)

/-- `spiegel::state_t::describe_address`; `none` for `false`.  `currentDir` is the directory of the
process. -/
def describeAddress (fuel : Nat) (currentDir : Filename) (s : LoadState) (addr : Nat) :
    Except DescribeError (Option Location) :=
  let addr := s.recordedAddress addr
  match s.describe fuel addr with
  | .error e     => .error (.move e)
  | .ok none     => .ok none
  | .ok (some d) =>
      match s.resolve (if d.curef = .null then d.funcref else d.curef) with
      | none    => .error .noCompileUnit
      | some cu =>
          match cu.linenoProgram.getSourceLine currentDir addr with
          | .error c          => .error (.crash c)
          | .ok none          => .ok none
          | .ok (some source) => .ok (some {
              compileUnit := cu.unit.index
              source := source
              function := d.funcref
              offset := d.offset })

end LoadState

/-! ### Prepared states -/

/-- The state was made from the link objects `los`, each loaded into its mappings, and `recs` are
the ranges of the functions of its compile units. -/
structure Prepared (los : List (LinkObject × List Mapping)) (recs : List Recorded) (s : LoadState) :
    Prop where
  linkObjectIndex : s.linkObjectIndex = linkObjectIndexOf los
  indexed : ∃ n, recordedRanges n (s.compileUnits.map LoadedUnit.unit) = .ok recs ∧
    prepareAddressIndex n (s.compileUnits.map LoadedUnit.unit) = .ok s.addressIndex
  /-- a compile unit gets the number of those before it -/
  index_nodup : (s.compileUnits.map (·.unit.index)).Nodup
  slide_lt : ∀ p ∈ los, p.1.slide < 2 ^ 64
  /-- no segment is empty, at address 0 or up to the end of memory -/
  segment : ∀ p ∈ los, ∀ m ∈ p.2, 0 < m.map ∧ 0 < m.size ∧ m.map + m.size < 2 ^ 64
  disjoint_live : (liveRanges los).Pairwise fun i j =>
    ∀ a, i.1.Contains a → ¬ j.1.Contains a
  /-- inside one link object -/
  disjoint_recorded : recs.Pairwise fun e f =>
    e.linkObject = f.linkObject → ∀ x, e.range.Contains x → ¬ f.range.Contains x

/-- The live address `a` is in the link object `p`, and the address recorded for it, `x`, in the
range `e` of one of the functions of `p`. -/
structure LiveIn (p : LinkObject × List Mapping) (e : Recorded) (a x : Nat) : Prop where
  object : p.1.id = e.linkObject
  mapped : ∃ m ∈ p.2, m.map ≤ a ∧ a < m.map + m.size
  recorded_lt : x < 2 ^ 64
  slid : a = (x + p.1.slide) % 2 ^ 64
  inside : e.range.Contains x

/-- No address is recorded twice; an empty range counts as the address it starts at. -/
def Separate (recs : List Recorded) : Prop :=
  recs.Pairwise fun e f => OrdMap.Comparable leftOfRange e.range f.range

section
variable (fuel : Nat) (currentDir : Filename)

/-- `describe_address` finds the function `f`, and the address at `offset` in it. -/
def Resolves (s : LoadState) (a : Nat) (f : Reference) (offset : Nat) : Prop :=
  ∃ loc, s.describeAddress fuel currentDir a = .ok (some loc) ∧ loc.function = f ∧
    loc.offset = offset

variable (los : List (LinkObject × List Mapping)) (recs : List Recorded) (s : LoadState)

/-- Every live address in a function resolves to it. -/
def AllResolve : Prop :=
  ∀ e ∈ recs, ∀ p ∈ los, ∀ a x, LiveIn p e a x →
    Resolves fuel currentDir s a e.function (x - e.range.lo)

/-- The line number program of the function's compile unit, asked for a live address of the
function, gives a line and does not throw; and no such address is `2 ^ 32` bytes or more behind the
start of the function. -/
def Lined : Prop :=
  ∀ e ∈ recs, ∀ p ∈ los, ∀ a x, LiveIn p e a x →
    (∀ cu ∈ s.compileUnits, e.function.resolver = .compileUnit cu.unit.index →
      ∃ source, cu.linenoProgram.getSourceLine currentDir x = .ok (some source)) ∧
    x - e.range.lo < 2 ^ 32

end

/-- All of every function is in memory. -/
structure InMemory (los : List (LinkObject × List Mapping)) (recs : List Recorded) : Prop where
  nonempty : ∀ e ∈ recs, e.range.lo < e.range.hi
  live : ∀ e ∈ recs, ∀ x, e.range.Contains x → ∃ p ∈ los, ∃ a, LiveIn p e a x

/-! ### Resolving -/

section
variable {fuel : Nat} {currentDir : Filename} {los : List (LinkObject × List Mapping)}
  {recs : List Recorded} {s : LoadState}

namespace Prepared

theorem live_nonempty (h : Prepared los recs s) {i : Range Nat × LinkObject}
    (hi : i ∈ liveRanges los) : i.1.lo < i.1.hi := by
  obtain ⟨p, hp, hi⟩ := List.mem_flatMap.mp hi
  obtain ⟨m, hm, rfl⟩ := List.mem_map.mp hi
  obtain ⟨-, hsize, hfits⟩ := h.segment p hp m hm
  change m.map < (m.map + m.size) % 2 ^ 64
  rw [Nat.mod_eq_of_lt hfits]
  exact Nat.lt_add_of_pos_right hsize

theorem comparable_live (h : Prepared los recs s) :
    (liveRanges los).Pairwise fun i j => OrdMap.Comparable leftOfRange i.1 j.1 :=
  h.disjoint_live.imp_of_mem fun hi hj hdisj =>
    comparable_of_disjoint (h.live_nonempty hi) (h.live_nonempty hj) hdisj

/-- The slide of the link object an address is in is taken off it. -/
theorem recordedAddress_eq (h : Prepared los recs s) {p : LinkObject × List Mapping} (hp : p ∈ los)
    {e : Recorded} {a x : Nat} (hl : LiveIn p e a x) : s.recordedAddress a = x := by
  obtain ⟨m, hm, hlo, hhi⟩ := hl.mapped
  obtain ⟨hpos, -, hfits⟩ := h.segment p hp m hm
  have hmem : (({ lo := m.map, hi := (m.map + m.size) % 2 ^ 64 } : Range Nat), p.1) ∈
      liveRanges los :=
    List.mem_flatMap.mpr ⟨p, hp, List.mem_map.mpr ⟨m, hm, rfl⟩⟩
  have hin : a < (m.map + m.size) % 2 ^ 64 := by
    rw [Nat.mod_eq_of_lt hfits]
    exact hhi
  have hfind := RangeTree.find_insertAll h.comparable_live hmem (.inr ⟨hlo, hin⟩)
  rw [LoadState.recordedAddress, h.linkObjectIndex, linkObjectIndexOf, hfind]
  change p.1.recordedAddress a = x
  rw [LinkObject.recordedAddress, if_pos (by omega)]
  have hslide := h.slide_lt p hp
  have hslid := hl.slid
  have hlt := hl.recorded_lt
  omega

theorem eq_of_index_eq (h : Prepared los recs s) {cu cu' : LoadedUnit} (hcu : cu ∈ s.compileUnits)
    (hcu' : cu' ∈ s.compileUnits) (heq : cu.unit.index = cu'.unit.index) : cu = cu' :=
  List.inj_on_of_nodup_map h.index_nodup hcu hcu' heq

/-- A unit of the state is found by its number. -/
theorem find?_index (h : Prepared los recs s) {cu : LoadedUnit} (hcu : cu ∈ s.compileUnits) :
    s.compileUnits.find? (·.unit.index = cu.unit.index) = some cu := by
  cases hfind : s.compileUnits.find? (·.unit.index = cu.unit.index) with
  | none => exact absurd (decide_eq_true rfl) (List.find?_eq_none.mp hfind cu hcu)
  | some c =>
      have hc := List.mem_of_find?_eq_some hfind
      have hindex : c.unit.index = cu.unit.index := by simpa using List.find?_some hfind
      rw [h.eq_of_index_eq hc hcu hindex]

theorem resolve_eq (h : Prepared los recs s) {cu : LoadedUnit} (hcu : cu ∈ s.compileUnits)
    {ref : Reference} (href : ref.resolver = .compileUnit cu.unit.index) :
    s.resolve ref = some cu := by
  have hfind := h.find?_index hcu
  have hunit : (s.compileUnits.map LoadedUnit.unit).find? (·.index = cu.unit.index) =
      some cu.unit := by
    rw [List.find?_map]
    exact congrArg (Option.map LoadedUnit.unit) hfind
  have hres : resolveReference (s.compileUnits.map LoadedUnit.unit) ref =
      some (cu.unit, ref.offset) := by
    rw [resolveReference, href]
    exact congrArg (Option.map fun c => (c, ref.offset)) hunit
  rw [LoadState.resolve, hres]
  exact hfind

/-- The compile unit of a recorded range. -/
theorem exists_unit (h : Prepared los recs s) {e : Recorded} (he : e ∈ recs) :
    ∃ cu ∈ s.compileUnits, e.linkObject = cu.unit.linkObject.id ∧
      e.function.resolver = .compileUnit cu.unit.index := by
  obtain ⟨n, hrecs, -⟩ := h.indexed
  obtain ⟨c, hc, hboth⟩ := exists_unit_of_recorded hrecs he
  obtain ⟨cu, hcu, rfl⟩ := List.mem_map.mp hc
  exact ⟨cu, hcu, hboth⟩

/-- Separate ranges are all found. -/
theorem find_eq (h : Prepared los recs s) (hsep : Separate recs) {e : Recorded} (he : e ∈ recs)
    {x : Nat} (hx : e.range.Contains x) :
    s.addressIndex.find x = some (e.range, e.function) := by
  obtain ⟨fuel, hrecs, hindex⟩ := h.indexed
  rw [prepareAddressIndex, hrecs] at hindex
  have haddr : addressIndexOf recs = s.addressIndex := Except.ok.inj hindex
  rw [← haddr, addressIndexOf]
  have hpairwise : (recs.map fun r => (r.range, r.function)).Pairwise fun i j =>
      OrdMap.Comparable leftOfRange i.1 j.1 := List.pairwise_map.mpr hsep
  exact RangeTree.find_insertAll hpairwise (List.mem_map.mpr ⟨e, he, rfl⟩) hx.covers

end Prepared

theorem LoadState.describeAddress_congr {a b : Nat}
    (h : s.recordedAddress a = s.recordedAddress b) :
    s.describeAddress fuel currentDir a = s.describeAddress fuel currentDir b := by
  unfold describeAddress
  rw [h]

/-- What `describe_address` returns for an address in the index, once its line is looked up. -/
theorem LoadState.describeAddress_of_find (fuel : Nat) (currentDir : Filename) {a x : Nat}
    (ha : s.recordedAddress a = x) {r : Range Nat} {f : Reference}
    (hfind : s.addressIndex.find x = some (r, f)) {cu : LoadedUnit}
    (hcu : s.resolve f = some cu) :
    s.describeAddress fuel currentDir a =
      match cu.linenoProgram.getSourceLine currentDir x with
      | .error c          => .error (.crash c)
      | .ok none          => .ok none
      | .ok (some source) => .ok (some {
          compileUnit := cu.unit.index
          source := source
          function := f
          offset := (x + (2 ^ 64 - r.lo)) % 2 ^ 64 % 2 ^ 32 }) := by
  have hdescribe : s.describe fuel x = .ok (some {
      funcref := f, offset := (x + (2 ^ 64 - r.lo)) % 2 ^ 64 % 2 ^ 32 }) := by
    rw [describe, if_pos (RangeTree.size_ne_zero_of_find hfind), hfind]
    rfl
  unfold describeAddress
  rw [ha]
  dsimp only
  rw [hdescribe]
  dsimp only
  rw [if_pos rfl, hcu]

/-- The offset in a range. -/
theorem offset_eq {lo x : Nat} (hlo : lo ≤ x) (hx : x < 2 ^ 64) :
    (x + (2 ^ 64 - lo)) % 2 ^ 64 % 2 ^ 32 = (x - lo) % 2 ^ 32 := by
  omega

namespace Prepared

/-- Separate ranges with line numbers are enough. -/
theorem resolves (h : Prepared los recs s) (hsep : Separate recs)
    (hlined : Lined currentDir los recs s) : AllResolve fuel currentDir los recs s := by
  intro e he p hp a x hl
  obtain ⟨cu, hcu, -, href⟩ := h.exists_unit he
  obtain ⟨hline, hoffset⟩ := hlined e he p hp a x hl
  obtain ⟨source, hsource⟩ := hline cu hcu href
  have hdescribe := LoadState.describeAddress_of_find fuel currentDir
    (h.recordedAddress_eq hp hl) (h.find_eq hsep he hl.inside) (h.resolve_eq hcu href)
  rw [hsource] at hdescribe
  refine ⟨_, hdescribe, rfl, ?_⟩
  change (x + (2 ^ 64 - e.range.lo)) % 2 ^ 64 % 2 ^ 32 = _
  rw [offset_eq hl.inside.1 hl.recorded_lt, Nat.mod_eq_of_lt hoffset]

/-- If two link objects record an address, then one of its live addresses resolves to the function
of the other object. -/
theorem separate (h : Prepared los recs s) (hmem : InMemory los recs)
    (hall : AllResolve fuel currentDir los recs s) : Separate recs := by
  refine h.disjoint_recorded.imp_of_mem fun {e f} he hf hdisj => ?_
  refine comparable_of_disjoint (hmem.nonempty e he) (hmem.nonempty f hf) ?_
  intro x hxe hxf
  obtain ⟨p, hp, a, hla⟩ := hmem.live e he x hxe
  obtain ⟨q, hq, b, hlb⟩ := hmem.live f hf x hxf
  -- both live addresses are recorded as the same, and described by what is recorded
  have haddr : s.recordedAddress a = s.recordedAddress b :=
    (h.recordedAddress_eq hp hla).trans (h.recordedAddress_eq hq hlb).symm
  obtain ⟨loc, hloc, hfun, -⟩ := hall e he p hp a x hla
  obtain ⟨loc', hloc', hfun', -⟩ := hall f hf q hq b x hlb
  have hsame : loc = loc' := by
    rw [LoadState.describeAddress_congr haddr, hloc'] at hloc
    exact (Option.some.inj (Except.ok.inj hloc)).symm
  -- so that the functions are the same, and with them the compile units
  obtain ⟨cu, hcu, hlo, href⟩ := h.exists_unit he
  obtain ⟨cu', hcu', hlo', href'⟩ := h.exists_unit hf
  have hfuns : e.function = f.function := by rw [← hfun, ← hfun', hsame]
  rw [hfuns, href'] at href
  have hunits : cu' = cu := h.eq_of_index_eq hcu' hcu (Resolver.compileUnit.inj href)
  refine hdisj ?_ x hxe hxf
  rw [hlo, hlo', hunits]

/-- An address that resolves has a line number, and the offset was not cut off. -/
theorem lined (h : Prepared los recs s) (hsep : Separate recs)
    (hall : AllResolve fuel currentDir los recs s) : Lined currentDir los recs s := by
  intro e he p hp a x hl
  obtain ⟨loc, hloc, -, hoffset⟩ := hall e he p hp a x hl
  obtain ⟨cu, hcu, -, href⟩ := h.exists_unit he
  rw [LoadState.describeAddress_of_find fuel currentDir (h.recordedAddress_eq hp hl)
    (h.find_eq hsep he hl.inside) (h.resolve_eq hcu href)] at hloc
  rcases hsource : cu.linenoProgram.getSourceLine currentDir x with c | _ | source
  · rw [hsource] at hloc
    cases hloc
  · rw [hsource] at hloc
    cases hloc
  rw [hsource] at hloc
  cases hloc
  refine ⟨fun c hc hcref => ⟨source, ?_⟩, ?_⟩
  · have heq : c = cu :=
      h.eq_of_index_eq hc hcu (Resolver.compileUnit.inj (hcref.symm.trans href))
    rw [heq, hsource]
  · rw [← hoffset]
    exact Nat.mod_lt _ (Nat.two_pow_pos 32)

end Prepared

/-- **Addresses resolve to functions** if no address is recorded twice, by one link object or by
two, and the line number programs give a line for each; and where all of every function is in
memory, only then. -/
theorem describeAddress_resolves_iff (fuel : Nat) (currentDir : Filename)
    (h : Prepared los recs s) :
    (Separate recs ∧ Lined currentDir los recs s → AllResolve fuel currentDir los recs s) ∧
      (InMemory los recs → AllResolve fuel currentDir los recs s →
        Separate recs ∧ Lined currentDir los recs s) := by
  refine ⟨fun ⟨hsep, hlined⟩ => h.resolves hsep hlined, fun hmem hall => ?_⟩
  have hsep := h.separate hmem hall
  exact ⟨hsep, h.lined hsep hall⟩

end

/-! ### Two link objects -/

/-- A sequence of `0x4000` bytes of code, from 0 on. -/
def codeOps : List LineOp :=
  [.setAddress (.byte 9) 0, .copy, .advancePc (.shifted 1 2), .endSequence (.byte 1)]

/-- The line number program of both objects, with a file number that no file has. -/
def codeLines : LinenoProgram where
  compilationDirectory := none
  reader := .ofBuffer 0 (encodeOps codeOps) (by decide)
  version := 4
  minimumInstructionLength := 1
  maximumOperationsPerInstruction := 1
  lineRange := 14
  opcodeBase := 13

theorem codeLines_hasOps : HasOps codeLines codeOps where
  valid := by
    intro op hop
    simp only [codeOps, List.mem_cons, List.not_mem_nil, or_false] at hop
    rcases hop with rfl | rfl | rfl | rfl
    · exact ⟨⟨by decide, by decide⟩, by decide⟩
    · exact (by decide : 0x01 < 13)
    · exact ⟨(by decide : 0x02 < 13), by decide, by decide⟩
    · exact ⟨by decide, by decide⟩
  headerLength_le := Nat.zero_le _
  bytes_eq := rfl

/-- The first row of the sequence. -/
def codeRow : Registers := codeLines.resetRegisters

theorem pairs_codeOps :
    pairs (table codeLines codeOps) =
      [({ registers := codeRow, files := [] },
        { registers := { codeRow with address := 0x4000, endSequence := true },
          files := [] })] := by
  simp [table, rows, codeOps, LineOp.appends, LineOp.apply, LineOp.next, LineOp.defines,
    LineOp.advance, codeLines, pairs, codeRow, LinenoProgram.resetRegisters, Leb.shifted, Leb.byte,
    Leb.toNat]

/-- Every address below `0x4000` has a line. -/
theorem getSourceLine_codeLines {x : Nat} (hx : x < 0x4000) (currentDir : Filename) :
    ∃ source, codeLines.getSourceLine currentDir x = .ok (some source) := by
  have hfinds := findsSourceLine_iff rfl (by decide) codeLines_hasOps currentDir x
  rw [pairs_codeOps] at hfinds
  obtain ⟨found, hfound, hcovered, -⟩ := hfinds.mpr fun q hq e he => by
    obtain ⟨-, pre, post, heq, -⟩ := hq
    have hmem : q ∈ pre ++ q :: post := by simp
    rw [← heq, List.mem_singleton] at hmem
    rw [hmem] at he
    cases he
  obtain ⟨source, rfl⟩ := Option.isSome_iff_exists.mp
    (hcovered.mpr ⟨_, List.mem_singleton_self _, Nat.zero_le x, hx⟩)
  exact ⟨source, hfound⟩

/-- Its unit when it is loaded. -/
def functionObjectUnit (id : Nat) (pc : UInt64) : CompileUnit :=
  (((functionUnit pc).loaded { index := id, linkObject := functionObject id pc }
    ((functionObject id pc).getSection .info).getContents).readAbbrevs
      ((functionObject id pc).getSection .abbrevs).getContents).1

theorem functionObjectUnit_index (id : Nat) (pc : UInt64) :
    (functionObjectUnit id pc).index = id := by
  rw [functionObjectUnit, CompileUnit.readAbbrevs]
  rfl

/-- Where it is mapped. -/
def functionObjectMapping (id : Nat) : Mapping :=
  { offset := 0, size := 0x4000, map := 0x10000 * (id + 1) }

/-- The range of its function, as the index has it. -/
def functionRecorded (id : Nat) (pc : UInt64) : Recorded where
  linkObject := id
  range := { lo := pc.toNat, hi := pc.toNat + 256 }
  function := { resolver := .compileUnit id, offset := 12 }

/-- Two such objects, at different addresses. -/
def twoObjects (pc pc' : UInt64) : List (LinkObject × List Mapping) :=
  [(functionObject 0 pc, [functionObjectMapping 0]),
    (functionObject 1 pc', [functionObjectMapping 1])]

/-- Their two ranges. -/
def twoRecorded (pc pc' : UInt64) : List Recorded := [functionRecorded 0 pc, functionRecorded 1 pc']

/-- The unit of an object, loaded. -/
def loadedUnit (id : Nat) (pc : UInt64) : LoadedUnit where
  unit := functionObjectUnit id pc
  attributes :=
    { filename := none, compilationDirectory := none, lowPc := 0, highPc := 0, language := 0 }
  linenoProgram := codeLines

/-- The state with the two link objects. -/
def twoObjectsState (pc pc' : UInt64) : LoadState where
  linkObjectIndex := linkObjectIndexOf (twoObjects pc pc')
  addressIndex := addressIndexOf (twoRecorded pc pc')
  compileUnits := [loadedUnit 0 pc, loadedUnit 1 pc']

theorem twoObjects_prepared {pc pc' : UInt64}
    (h : recordedRanges 5 [functionObjectUnit 0 pc, functionObjectUnit 1 pc'] =
      .ok (twoRecorded pc pc')) :
    Prepared (twoObjects pc pc') (twoRecorded pc pc') (twoObjectsState pc pc') where
  linkObjectIndex := rfl
  indexed := by
    have hunits : (twoObjectsState pc pc').compileUnits.map LoadedUnit.unit =
        [functionObjectUnit 0 pc, functionObjectUnit 1 pc'] := by
      simp only [twoObjectsState, loadedUnit, List.map_cons, List.map_nil]
    rw [hunits]
    refine ⟨5, h, ?_⟩
    rw [prepareAddressIndex]
    exact congrArg (Except.map addressIndexOf) h
  index_nodup := by
    simp [twoObjectsState, loadedUnit, functionObjectUnit_index]
  slide_lt := by
    simp [twoObjects, functionObject, LinkObject.ofSections]
  segment := by
    simp [twoObjects, functionObjectMapping]
  disjoint_live := by
    simp [twoObjects, liveRanges, functionObjectMapping, Range.Contains]
    omega
  disjoint_recorded := by
    simp [twoRecorded, functionRecorded]

section
variable {pc pc' : UInt64}

/-- The function of the `id`-th object is loaded into its mapping. -/
theorem functionRecorded_live {id : Nat} (hid : id < 2) (hpc : pc.toNat + 256 ≤ 0x4000) {x : Nat}
    (hx : (functionRecorded id pc).range.Contains x) :
    LiveIn (functionObject id pc, [functionObjectMapping id]) (functionRecorded id pc)
      (x + 0x10000 * (id + 1)) x := by
  have hlt : x < pc.toNat + 256 := hx.2
  refine ⟨rfl, ⟨_, List.mem_singleton_self _, ?_, ?_⟩, by omega, ?_, hx⟩
  · exact Nat.le_add_left _ _
  · change x + 0x10000 * (id + 1) < 0x10000 * (id + 1) + 0x4000
    omega
  · change _ = (x + 0x10000 * (id + 1)) % 2 ^ 64
    omega

theorem twoObjects_inMemory (hpc : pc.toNat + 256 ≤ 0x4000) (hpc' : pc'.toNat + 256 ≤ 0x4000) :
    InMemory (twoObjects pc pc') (twoRecorded pc pc') where
  nonempty := by
    simp [twoRecorded, functionRecorded]
  live := by
    intro e he x hx
    rcases List.mem_cons.mp he with rfl | he
    · exact ⟨_, List.mem_cons_self, _, functionRecorded_live (by decide) hpc hx⟩
    · obtain rfl := List.mem_singleton.mp he
      exact ⟨_, List.mem_cons_of_mem _ List.mem_cons_self, _,
        functionRecorded_live (by decide) hpc' hx⟩

theorem twoObjects_lined (hpc : pc.toNat + 256 ≤ 0x4000) (hpc' : pc'.toNat + 256 ≤ 0x4000)
    (currentDir : Filename) :
    Lined currentDir (twoObjects pc pc') (twoRecorded pc pc') (twoObjectsState pc pc') := by
  intro e he p hp a x hl
  have hrange : e.range.hi ≤ 0x4000 ∧ e.range.hi = e.range.lo + 256 := by
    rcases List.mem_cons.mp he with rfl | he
    · exact ⟨hpc, rfl⟩
    · obtain rfl := List.mem_singleton.mp he
      exact ⟨hpc', rfl⟩
  obtain ⟨hlo, hhi⟩ := hl.inside
  refine ⟨fun cu hcu _ => ?_, by omega⟩
  have hlines : cu.linenoProgram = codeLines := by
    rcases List.mem_cons.mp hcu with rfl | hcu
    · rfl
    · obtain rfl := List.mem_singleton.mp hcu
      rfl
  rw [hlines]
  exact getSourceLine_codeLines (by omega) currentDir

end

theorem twoObjects_apart_prepared :
    Prepared (twoObjects 4096 8192) (twoRecorded 4096 8192) (twoObjectsState 4096 8192) :=
  twoObjects_prepared (by decide +kernel)

theorem twoObjects_same_prepared :
    Prepared (twoObjects 4096 4096) (twoRecorded 4096 4096) (twoObjectsState 4096 4096) :=
  twoObjects_prepared (by decide +kernel)

/-- Two link objects that have recorded different addresses. -/
theorem describeAddress_resolves_iff_two_objects :
    InMemory (twoObjects 4096 8192) (twoRecorded 4096 8192) ∧
      AllResolve 0 [] (twoObjects 4096 8192) (twoRecorded 4096 8192)
        (twoObjectsState 4096 8192) := by
  refine ⟨twoObjects_inMemory (by decide) (by decide),
    (describeAddress_resolves_iff 0 [] twoObjects_apart_prepared).1
      ⟨?_, twoObjects_lined (by decide) (by decide) []⟩⟩
  refine List.pairwise_pair.mpr (.inl ?_)
  decide

/-- Two link objects that have recorded the same address for their functions: an address in the
function of the first resolves to the function of the second. -/
theorem describeAddress_resolves_to_other_object :
    Prepared (twoObjects 4096 4096) (twoRecorded 4096 4096) (twoObjectsState 4096 4096) ∧
      LiveIn (functionObject 0 4096, [functionObjectMapping 0]) (functionRecorded 0 4096)
        0x11040 0x1040 ∧
      Resolves 0 [] (twoObjectsState 4096 4096) 0x11040 (functionRecorded 1 4096).function 0x40 ∧
      ¬ AllResolve 0 [] (twoObjects 4096 4096) (twoRecorded 4096 4096)
        (twoObjectsState 4096 4096) := by
  have hlive : LiveIn (functionObject 0 4096, [functionObjectMapping 0]) (functionRecorded 0 4096)
      0x11040 0x1040 :=
    functionRecorded_live (by decide) (by decide) ⟨by decide, by decide⟩
  have hfind : (twoObjectsState 4096 4096).addressIndex.find 0x1040 =
      some ({ lo := 4096, hi := 4352 }, (functionRecorded 1 4096).function) := by decide
  have hcu : (twoObjectsState 4096 4096).resolve (functionRecorded 1 4096).function =
      some (loadedUnit 1 4096) := by
    refine twoObjects_same_prepared.resolve_eq (List.mem_cons_of_mem _ List.mem_cons_self) ?_
    change _ = Resolver.compileUnit (functionObjectUnit 1 4096).index
    rw [functionObjectUnit_index]
    rfl
  have hdescribe := LoadState.describeAddress_of_find 0 []
    (twoObjects_same_prepared.recordedAddress_eq List.mem_cons_self hlive) hfind hcu
  obtain ⟨source, hsource⟩ : ∃ source, (loadedUnit 1 4096).linenoProgram.getSourceLine [] 0x1040 =
      .ok (some source) := getSourceLine_codeLines (by decide) []
  rw [hsource] at hdescribe
  refine ⟨twoObjects_same_prepared, hlive, ⟨_, hdescribe, rfl, rfl⟩, fun hall => ?_⟩
  obtain ⟨loc, hloc, hfun, -⟩ := hall (functionRecorded 0 4096) List.mem_cons_self _
    List.mem_cons_self _ _ hlive
  rw [hdescribe] at hloc
  cases hloc
  have hne : (functionRecorded 1 4096).function ≠ (functionRecorded 0 4096).function := by decide
  exact hne hfun

end NovaProva.Dwarf
