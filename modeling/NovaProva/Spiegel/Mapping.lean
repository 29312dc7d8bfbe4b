import Mathlib.Data.List.Basic
import Mathlib.Tactic.Ring

/-!
# Spiegel — Mapping

`np/spiegel/mapping.hxx`, the list of link objects the runtime linker reports
(`platform/linux.cxx`), and `link_object_t::map_from_system`, which looks for a section of the
object file in the memory the linker has already mapped instead of mapping the file again.

A recorded mapping starts at `p_offset` in the file and has the size `p_memsz` of the segment in
memory, of which only the first `p_filesz` bytes come from the file; the rest is zero.  A section
that lies behind the segment in the file, but not behind its memory, is taken from there too.
-/

namespace NovaProva

/-- `mapping_t`: a range of a file, and the address it is mapped at.  Its members are
`unsigned long`s. -/
structure Mapping where
  offset : Nat
  size : Nat
  map : Nat := 0
  deriving DecidableEq

namespace Mapping

/-- `get_end`. -/
def getEnd (m : Mapping) : Nat := (m.offset + m.size) % 2 ^ 64

/-- `contains` of another range of the file. -/
def contains (m n : Mapping) : Bool := m.offset ≤ n.offset && m.getEnd ≥ n.getEnd

/-- `map_from`: `n` lies within `m`, and so does its mapping. -/
def mapFrom (n m : Mapping) : Mapping :=
  { n with map := (m.map + n.offset + (2 ^ 64 - m.offset)) % 2 ^ 64 }

end Mapping

/-! ### Link objects -/

/-- `PT_LOAD`. -/
def ptLoad : Nat := 1

/-- `ElfW(Phdr)`, a program header of a loaded object. -/
structure Phdr where
  type : Nat := ptLoad
  offset : Nat
  vaddr : Nat
  filesz : Nat
  memsz : Nat

/-- `struct dl_phdr_info`. -/
structure PhdrInfo where
  addr : Nat
  phdrs : List Phdr

/-- `linkobj_t`. -/
structure LinkObj where
  slide : Nat
  mappings : List Mapping
  deriving DecidableEq

/-- The program headers `add_one_linkobj` does not ignore. -/
def Phdr.isMapped (ph : Phdr) : Bool := ph.type = ptLoad && ph.memsz ≠ 0

/-- The mapping recorded for a program header of an object loaded at `addr`. -/
def Phdr.mapping (addr : Nat) (ph : Phdr) : Mapping :=
  { offset := ph.offset, size := ph.memsz, map := (addr + ph.vaddr) % 2 ^ 64 }

/-- `add_one_linkobj`; an object without program headers is ignored. -/
def addOneLinkobj (info : PhdrInfo) : Option LinkObj :=
  if info.phdrs.isEmpty then none
  else some {
    slide := info.addr
    mappings := (info.phdrs.filter (·.isMapped)).map (·.mapping info.addr) }

/-- `link_object_t::map_from_system`: the mapped section, if a system mapping contains it. -/
def mapFromSystem (systemMappings : List Mapping) (m : Mapping) : Option Mapping :=
  (systemMappings.find? fun sm => sm.contains m).map m.mapFrom

/-! ### What a section is read as -/

/-- The memory `mem` holds the object whose file is `file`, as the runtime linker has loaded it. -/
def Loaded (file : List UInt8) (info : PhdrInfo) (mem : Nat → UInt8) : Prop :=
  ∀ ph ∈ info.phdrs, ph.type = ptLoad → ∀ i < ph.memsz,
    mem ((info.addr + ph.vaddr + i) % 2 ^ 64) =
      if i < ph.filesz then file.getD (ph.offset + i) 0 else 0

/-- The bytes of a mapped section are those of the file. -/
def ReadsFile (file : List UInt8) (mem : Nat → UInt8) (sec : Mapping) : Prop :=
  ∀ k < sec.size, mem ((sec.map + k) % 2 ^ 64) = file.getD (sec.offset + k) 0

/-- The program header whose mapping is used for a section. -/
def PhdrInfo.phdrFor (info : PhdrInfo) (offset size : Nat) : Option Phdr :=
  info.phdrs.find? fun ph =>
    ph.isMapped && ph.offset ≤ offset && offset + size ≤ (ph.offset + ph.memsz) % 2 ^ 64

/-- Behind what the segment has in the file, the section is zero. -/
def ZeroBehind (file : List UInt8) (info : PhdrInfo) (offset size : Nat) : Prop :=
  ∀ ph, info.phdrFor offset size = some ph →
    ∀ k < size, ph.offset + ph.filesz ≤ offset + k → file.getD (offset + k) 0 = 0

/-- A section is satisfied from the mapping of the program header `phdrFor` finds. -/
theorem mapFromSystem_eq {info : PhdrInfo} {lo : LinkObj} {offset size : Nat}
    (hlo : addOneLinkobj info = some lo) (hs : offset + size < 2 ^ 64) :
    mapFromSystem lo.mappings { offset := offset, size := size } =
      (info.phdrFor offset size).map fun ph =>
        Mapping.mapFrom { offset := offset, size := size } (ph.mapping info.addr) := by
  unfold addOneLinkobj at hlo
  split at hlo
  · cases hlo
  · cases hlo
    have hp : ∀ ph : Phdr,
        (ph.mapping info.addr).contains { offset := offset, size := size } =
          (ph.offset ≤ offset && offset + size ≤ (ph.offset + ph.memsz) % 2 ^ 64) := by
      intro ph
      have hend : (offset + size) % 2 ^ 64 = offset + size := Nat.mod_eq_of_lt hs
      unfold Mapping.contains Mapping.getEnd Phdr.mapping
      dsimp only
      rw [hend]
    simp [mapFromSystem, PhdrInfo.phdrFor, List.find?_map, List.find?_filter, Function.comp_def,
      hp, Bool.and_assoc]

/-- The segment `phdrFor` finds has the section inside its memory. -/
theorem PhdrInfo.phdrFor_spec {info : PhdrInfo} {offset size : Nat} {ph : Phdr}
    (h : info.phdrFor offset size = some ph) :
    ph ∈ info.phdrs ∧ ph.type = ptLoad ∧ ph.offset ≤ offset ∧
      offset + size ≤ ph.offset + ph.memsz := by
  have hmem := List.mem_of_find?_eq_some h
  have hp := List.find?_some h
  simp only [Phdr.isMapped, Bool.and_eq_true, decide_eq_true_eq] at hp
  obtain ⟨⟨⟨htype, -⟩, hle⟩, hend⟩ := hp
  exact ⟨hmem, htype, hle, Nat.le_trans hend (Nat.mod_le _ _)⟩

/-- Through the map of a section one sees the bytes of the segment that has it. -/
theorem Loaded.mem_mapFrom {file : List UInt8} {info : PhdrInfo} {mem : Nat → UInt8}
    (hl : Loaded file info mem) {ph : Phdr} (hph : ph ∈ info.phdrs) (ht : ph.type = ptLoad)
    {offset size k : Nat} (hle : ph.offset ≤ offset) (hlt : offset < 2 ^ 64)
    (hk : offset + k < ph.offset + ph.memsz) :
    mem (((Mapping.mapFrom { offset := offset, size := size } (ph.mapping info.addr)).map + k)
        % 2 ^ 64) =
      if offset + k < ph.offset + ph.filesz then file.getD (offset + k) 0 else 0 := by
  have haddr : ((Mapping.mapFrom { offset := offset, size := size }
      (ph.mapping info.addr)).map + k) % 2 ^ 64 =
      (info.addr + ph.vaddr + (offset + k - ph.offset)) % 2 ^ 64 := by
    simp only [Mapping.mapFrom, Phdr.mapping]
    omega
  rw [haddr, hl ph hph ht _ (by omega)]
  have hoff : ph.offset + (offset + k - ph.offset) = offset + k := by omega
  have hcond : offset + k - ph.offset < ph.filesz ↔ offset + k < ph.offset + ph.filesz := by
    omega
  simp only [hoff, hcond]

/-- **A section taken from the system mappings reads as the file does exactly if** it is zero
behind the part of its segment that comes from the file. -/
theorem mapFromSystem_reads_file_iff {file : List UInt8} {info : PhdrInfo} {mem : Nat → UInt8}
    {lo : LinkObj} {offset size : Nat} (hl : Loaded file info mem)
    (hlo : addOneLinkobj info = some lo) (hsec : offset + size ≤ file.length)
    (hfile : file.length < 2 ^ 64) :
    (∀ sec, mapFromSystem lo.mappings { offset := offset, size := size } = some sec →
        ReadsFile file mem sec) ↔
      ZeroBehind file info offset size := by
  rw [mapFromSystem_eq hlo (by omega)]
  constructor
  · intro h ph hph k hk hbehind
    obtain ⟨hmem, ht, hle, hend⟩ := PhdrInfo.phdrFor_spec hph
    have hread := h _ (by rw [hph]; rfl) k hk
    rw [hl.mem_mapFrom hmem ht hle (by omega) (by omega), if_neg (by omega)] at hread
    exact hread.symm
  · intro h sec hsome k hk
    obtain ⟨ph, hph, rfl⟩ := Option.map_eq_some_iff.mp hsome
    obtain ⟨hmem, ht, hle, hend⟩ := PhdrInfo.phdrFor_spec hph
    have hk' : k < size := hk
    rw [hl.mem_mapFrom hmem ht hle (by omega) (by omega)]
    split
    · rfl
    · exact (h ph hph k hk' (by omega)).symm

/-- A file of three bytes of which the segment has two, and two more bytes of memory. -/
def tailInfo : PhdrInfo :=
  { addr := 0, phdrs := [{ offset := 0, vaddr := 4096, filesz := 2, memsz := 4 }] }

/-- The memory of `tailInfo`'s object with the file `[1, 2, last]`. -/
def tailMem (a : Nat) : UInt8 := if a = 4096 then 1 else if a = 4097 then 2 else 0

theorem loaded_tail (last : UInt8) : Loaded [1, 2, last] tailInfo tailMem := by
  intro ph hph ht i hi
  obtain rfl := List.mem_singleton.mp hph
  simp only at hi
  have hcases : i = 0 ∨ i = 1 ∨ i = 2 ∨ i = 3 := by omega
  rcases hcases with rfl | rfl | rfl | rfl <;> simp [tailInfo, tailMem]

/-- The section behind the segment, at offset 2, is read as 0 and is 3 in the file. -/
theorem mapFromSystem_misreads_section_behind_segment :
    ∃ lo sec, Loaded [1, 2, 3] tailInfo tailMem ∧ addOneLinkobj tailInfo = some lo ∧
      mapFromSystem lo.mappings { offset := 2, size := 1 } = some sec ∧
      ¬ ReadsFile [1, 2, 3] tailMem sec := by
  refine ⟨_, _, loaded_tail 3, rfl, rfl, ?_⟩
  intro h
  exact absurd (h 0 (by decide)) (by decide)

/-- A zero there is read as the file has it. -/
theorem mapFromSystem_reads_file_zero :
    ∃ sec, mapFromSystem [{ offset := 0, size := 4, map := 4096 }] { offset := 2, size := 1 } =
        some sec ∧
      ReadsFile [1, 2, 0] tailMem sec := by
  have hlo : addOneLinkobj tailInfo =
      some { slide := 0, mappings := [{ offset := 0, size := 4, map := 4096 }] } := rfl
  have hzero : ZeroBehind [1, 2, 0] tailInfo 2 1 := by
    intro ph hph k hk hbehind
    obtain rfl : k = 0 := by omega
    rfl
  exact ⟨_, rfl, (mapFromSystem_reads_file_iff (loaded_tail 0) hlo (by decide)
    (by decide)).mpr hzero _ rfl⟩

end NovaProva
