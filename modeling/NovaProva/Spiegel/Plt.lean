import NovaProva.Spiegel.Mapping

/-!
# Spiegel — Procedure linkage tables

`state_t::instrumentable_address`: an address in a procedure linkage table is not where a function
is, so the slot is followed to the function.  Whether an address is in one is decided by
`mapping_t::contains` of a pointer, and that counts the address behind the table as well.

* `plts`: the tables `map_sections` records.
* `instrumentableAddress_iff`: where the decision is right.
-/

namespace NovaProva

/-! ### Tables -/

/-- `mapping_t::contains` of a pointer. -/
def Mapping.containsAddr (m : Mapping) (p : Nat) : Bool :=
  m.map ≤ p && (m.map + m.size) % 2 ^ 64 ≥ p

/-- `asection`, as far as it is read. -/
structure Section where
  name : String
  filepos : Nat
  size : Nat

/-- `is_plt_section`. -/
def isPltSection (secname : String) : Bool := secname = ".plt"

/-- A link object whose sections are ranges of its file, and whose system mappings are regions of
the address space. -/
structure LoadedObject where
  systemMappings : List Mapping
  sections : List Section
  region : ∀ sm ∈ systemMappings, sm.offset + sm.size < 2 ^ 64 ∧ sm.map + sm.size < 2 ^ 64
  range : ∀ sec ∈ sections, sec.filepos + sec.size < 2 ^ 64

namespace LoadedObject

/-- `plts_`, as the first loop of `map_sections` fills it. -/
def plts (lo : LoadedObject) : List Mapping :=
  lo.sections.filterMap fun sec =>
    if isPltSection sec.name then
      mapFromSystem lo.systemMappings { offset := sec.filepos, size := sec.size }
    else none

/-- `link_object_t::is_in_plt`. -/
def isInPlt (lo : LoadedObject) (addr : Nat) : Bool := lo.plts.any fun m => m.containsAddr addr

end LoadedObject

/-! ### Addresses -/

/-- What `follow_plt` asks the runtime linker.  `dladdr` fails, or it finds the object an address is
in, with the name of a symbol or with a null pointer where no symbol matches; and the next object
has an address for a name. -/
structure Linker where
  dladdr : Nat → Option (Option String)
  dlsymNext : String → Nat

/-- `follow_plt`; `none` where `dlsym` gets a null pointer for the name and does not return. -/
def followPlt (dl : Linker) (addr : Nat) : Option Nat :=
  match dl.dladdr addr with
  | none             => some addr
  | some none        => none
  | some (some name) => some (dl.dlsymNext name)

/-- `state_t::instrumentable_address`. -/
def instrumentableAddress (dl : Linker) (linkObjects : List LoadedObject) (addr : Nat) :
    Option Nat :=
  if linkObjects.any fun lo => lo.isInPlt addr then followPlt dl addr else some addr

/-- The address is in the half-open interval of a table. -/
def Mapping.Has (m : Mapping) (addr : Nat) : Prop := m.map ≤ addr ∧ addr < m.map + m.size

/-- The address lies in the PLT of an object. -/
def InPlt (linkObjects : List LoadedObject) (addr : Nat) : Prop :=
  ∃ lo ∈ linkObjects, ∃ m ∈ lo.plts, m.Has addr

/-- The address is the first one behind a table. -/
def BehindPlt (linkObjects : List LoadedObject) (addr : Nat) : Prop :=
  ∃ lo ∈ linkObjects, ∃ m ∈ lo.plts, addr = m.map + m.size

/-- A table is a region of the address space, as the mapping it was found in is. -/
theorem LoadedObject.plts_region {lo : LoadedObject} {m : Mapping} (hm : m ∈ lo.plts) :
    m.map + m.size < 2 ^ 64 := by
  obtain ⟨sec, hsec, hsome⟩ := List.mem_filterMap.mp hm
  split at hsome
  case isFalse => exact absurd hsome.symm (Option.some_ne_none _)
  case isTrue =>
    obtain ⟨sm, hfind, rfl⟩ := Option.map_eq_some_iff.mp hsome
    have hcontains := List.find?_some hfind
    obtain ⟨hfile, hmem⟩ := lo.region sm (List.mem_of_find?_eq_some hfind)
    have hrange := lo.range sec hsec
    unfold Mapping.contains Mapping.getEnd at hcontains
    rw [Bool.and_eq_true, decide_eq_true_eq, decide_eq_true_eq] at hcontains
    dsimp only at hcontains
    rw [Nat.mod_eq_of_lt hfile, Nat.mod_eq_of_lt hrange] at hcontains
    have hmap : (sm.map + sec.filepos + (2 ^ 64 - sm.offset)) % 2 ^ 64 =
        sm.map + (sec.filepos - sm.offset) := by omega
    show (sm.map + sec.filepos + (2 ^ 64 - sm.offset)) % 2 ^ 64 + sec.size < 2 ^ 64
    omega

/-- What the code takes for being in a table. -/
theorem any_isInPlt {linkObjects : List LoadedObject} {addr : Nat} :
    (linkObjects.any fun lo => lo.isInPlt addr) = true ↔
      InPlt linkObjects addr ∨ BehindPlt linkObjects addr := by
  have hcontains : ∀ lo : LoadedObject, ∀ m ∈ lo.plts,
      m.containsAddr addr = true ↔ m.Has addr ∨ addr = m.map + m.size := by
    intro lo m hm
    have hregion := lo.plts_region hm
    unfold Mapping.containsAddr Mapping.Has
    rw [Nat.mod_eq_of_lt hregion, Bool.and_eq_true, decide_eq_true_eq, decide_eq_true_eq]
    omega
  unfold LoadedObject.isInPlt
  rw [List.any_eq_true]
  simp only [List.any_eq_true]
  constructor
  · rintro ⟨lo, hlo, m, hm, hc⟩
    rcases (hcontains lo m hm).mp hc with hin | hbehind
    · exact .inl ⟨lo, hlo, m, hm, hin⟩
    · exact .inr ⟨lo, hlo, m, hm, hbehind⟩
  · rintro (⟨lo, hlo, m, hm, hin⟩ | ⟨lo, hlo, m, hm, hbehind⟩)
    · exact ⟨lo, hlo, m, hm, (hcontains lo m hm).mpr (.inl hin)⟩
    · exact ⟨lo, hlo, m, hm, (hcontains lo m hm).mpr (.inr hbehind)⟩

/-- The slot is followed just where there is one. -/
def Instruments (linkObjects : List LoadedObject) (addr : Nat) : Prop :=
  ∀ dl : Linker,
    (InPlt linkObjects addr → instrumentableAddress dl linkObjects addr = followPlt dl addr) ∧
      (¬ InPlt linkObjects addr → instrumentableAddress dl linkObjects addr = some addr)

/-- A linker for which every address is in a slot of another function. -/
def elsewhere (addr : Nat) : Linker where
  dladdr _ := some (some "")
  dlsymNext _ := addr + 1

/-- **An address is instrumented where it should be exactly if** it is not the one behind a table,
or is in another. -/
theorem instrumentableAddress_iff (linkObjects : List LoadedObject) (addr : Nat) :
    Instruments linkObjects addr ↔ (BehindPlt linkObjects addr → InPlt linkObjects addr) := by
  constructor
  · intro h hbehind
    by_contra hnot
    have heq := (h (elsewhere addr)).2 hnot
    unfold instrumentableAddress at heq
    rw [if_pos (any_isInPlt.mpr (.inr hbehind))] at heq
    exact absurd (Option.some.inj heq) (Nat.succ_ne_self addr)
  · intro h dl
    constructor
    · intro hin
      exact if_pos (any_isInPlt.mpr (.inl hin))
    · intro hnot
      refine if_neg fun hany => ?_
      rcases any_isInPlt.mp hany with hin | hbehind
      · exact hnot hin
      · exact hnot (h hbehind)

theorem textBehind_region : ∀ sm ∈ [({ offset := 0, size := 8192, map := 0x400000 } : Mapping)],
    sm.offset + sm.size < 2 ^ 64 ∧ sm.map + sm.size < 2 ^ 64 := by decide

theorem textBehind_range : ∀ sec ∈ [(⟨".plt", 0x1000, 0x20⟩ : Section), ⟨".text", 0x1020, 0x100⟩],
    sec.filepos + sec.size < 2 ^ 64 := by decide

/-- An object in which the code begins where the table ends. -/
def textBehind : LoadedObject where
  systemMappings := [{ offset := 0, size := 8192, map := 0x400000 }]
  sections := [⟨".plt", 0x1000, 0x20⟩, ⟨".text", 0x1020, 0x100⟩]
  region := textBehind_region
  range := textBehind_range

/-- The first function of the object is not known to any other, so `dlsym` has no address. -/
def onlyHere : Linker where
  dladdr addr := if addr = 0x401020 then some (some "first") else none
  dlsymNext _ := 0

theorem plts_textBehind :
    textBehind.plts = [{ offset := 0x1000, size := 0x20, map := 0x401000 }] := by decide

/-- The first function behind the table is followed to a null pointer. -/
theorem instrumentableAddress_behind :
    ¬ InPlt [textBehind] 0x401020 ∧
      instrumentableAddress onlyHere [textBehind] 0x401020 = some 0 ∧
      ¬ Instruments [textBehind] 0x401020 := by
  have hnot : ¬ InPlt [textBehind] 0x401020 := by
    rintro ⟨lo, hlo, m, hm, hhas⟩
    rw [List.mem_singleton.mp hlo, plts_textBehind, List.mem_singleton] at hm
    rw [hm] at hhas
    exact absurd hhas.2 (by decide)
  have hzero : instrumentableAddress onlyHere [textBehind] 0x401020 = some 0 := by decide
  refine ⟨hnot, hzero, fun h => ?_⟩
  have heq := (h onlyHere).2 hnot
  rw [hzero] at heq
  exact absurd heq (by decide)

end NovaProva
