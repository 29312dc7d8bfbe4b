import NovaProva.Dwarf.Reader

/-!
# Dwarf — Compile units

The data of the debugging information (`enumerations.hxx`, `abbrev.hxx`, `value.hxx`,
`reference.hxx`, `section.hxx`) and `compile_unit.cxx`: a compile unit is read off the `.debug_info`
section header by header, and its abbreviations off the `.debug_abbrev` section.
-/

namespace NovaProva.Dwarf

/-! ### Forms and abbreviations -/

/-- `form_values`. -/
inductive Form where
  | addr | block2 | block4 | data2 | data4 | data8 | string | block | block1 | data1 | flag
  | sdata | strp | udata | refAddr | ref1 | ref2 | ref4 | ref8 | refUdata | indirect
  | secOffset | exprloc | flagPresent | refSig8
  deriving DecidableEq

namespace Form

/-- The number of a form, `DW_FORM_…`. -/
def code : Form → Nat
  | addr        => 0x01
  | block2      => 0x03
  | block4      => 0x04
  | data2       => 0x05
  | data4       => 0x06
  | data8       => 0x07
  | string      => 0x08
  | block       => 0x09
  | block1      => 0x0a
  | data1       => 0x0b
  | flag        => 0x0c
  | sdata       => 0x0d
  | strp        => 0x0e
  | udata       => 0x0f
  | refAddr     => 0x10
  | ref1        => 0x11
  | ref2        => 0x12
  | ref4        => 0x13
  | ref8        => 0x14
  | refUdata    => 0x15
  | indirect    => 0x16
  | secOffset   => 0x17
  | exprloc     => 0x18
  | flagPresent => 0x19
  | refSig8     => 0x20

/-- All forms that there are. -/
def all : List Form :=
  [addr, block2, block4, data2, data4, data8, string, block, block1, data1, flag, sdata, strp,
    udata, refAddr, ref1, ref2, ref4, ref8, refUdata, indirect, secOffset, exprloc, flagPresent,
    refSig8]

/-- The form a number read from an abbreviation stands for, if it is one of `form_values`. -/
def ofCode (n : Nat) : Option Form := all.find? (·.code = n)

@[simp] theorem ofCode_code (f : Form) : ofCode f.code = some f := by
  cases f <;> rfl

/-- The forms with a length in front of their bytes. -/
def isBlock : Form → Bool
  | .block | .block1 | .block2 | .block4 | .exprloc => true
  | _ => false

end Form

/-- `abbrev_t::attr_spec_t`. -/
structure AttrSpec where
  name : Nat
  form : Nat
  deriving DecidableEq

/-- `abbrev_t`. -/
structure Abbrev where
  code : Nat
  tag : Nat
  children : Nat
  attrSpecs : List AttrSpec
  deriving DecidableEq

/-- The loop of `abbrev_t::read`.  A round reads at least two bytes, so that the bytes of the
buffer bound the number of rounds. -/
def readAttrSpecs : Nat → Read (List AttrSpec)
  | 0     => Read.fail
  | n + 1 => do
      let name ← Read.readUleb128
      let form ← Read.readUleb128
      -- name=0, form=0 indicates end of attribute specifications
      if name = 0 ∧ form = 0 then return []
      else
        let specs ← readAttrSpecs n
        return { name := name, form := form } :: specs

/-- `abbrev_t::read`, into an abbreviation made with `code`. -/
def Abbrev.read (code : Nat) : Read Abbrev := do
  let tag ← Read.readUleb128
  let children ← Read.readU8
  let attrSpecs ← fun r => readAttrSpecs (r.rest.length + 1) r
  return { code := code, tag := tag, children := children, attrSpecs := attrSpecs }

/-! ### References and values -/

/-- What a `reference_t`'s `resolver` points to. -/
inductive Resolver where
  | null
  | compileUnit (index : Nat)
  | linkObject (id : Nat)
  deriving DecidableEq

/-- `reference_t`. -/
structure Reference where
  resolver : Resolver
  offset : Nat
  deriving DecidableEq

/-- `reference_t::null`. -/
def Reference.null : Reference := { resolver := .null, offset := 0 }

/-- `value_t`; a string and a block are here what their pointers point to. -/
inductive Value where
  | undef
  | string (v : List UInt8)
  | sint32 (v : Int)
  | uint32 (v : Nat)
  | uint64 (v : Nat)
  | bytes (v : List UInt8)
  | ref (v : Reference)
  deriving DecidableEq

/-- `make_addr`. -/
def Value.makeAddr (v : Nat) : Value := .uint64 v
/-- `make_offset`. -/
def Value.makeOffset (v : Nat) : Value := .uint64 v

/-! ### Link objects -/

/-- `section_t`, mapped at `map`; the upper half of the address space is the kernel's. -/
structure Section where
  map : Nat
  bytes : List UInt8
  fits : map + bytes.length < 2 ^ 63

namespace Section

/-- A section the object does not have. -/
def empty : Section := ⟨0, [], by decide⟩

theorem fits_reader (s : Section) : s.map + s.bytes.length < 2 ^ 64 :=
  s.fits.trans (Nat.pow_lt_pow_right (by omega) (by omega))

/-- `section_t::get_contents`: a reader at the start of the section. -/
def getContents (s : Section) : Reader := .ofBuffer s.map s.bytes s.fits_reader

@[simp] theorem getContents_base (s : Section) : s.getContents.base = s.map := rfl
@[simp] theorem getContents_p (s : Section) : s.getContents.p = s.map := rfl
@[simp] theorem getContents_end (s : Section) :
    s.getContents.end_ = s.map + s.bytes.length := rfl

theorem at_getContents (s : Section) : s.getContents.At s.bytes :=
  Reader.at_ofBuffer s.map s.bytes s.fits_reader

/-- `offset_as_string`; the string must end inside the section. -/
def offsetAsString (s : Section) (off : Nat) : Option (List UInt8) :=
  if off ≥ s.bytes.length then none
  else ((s.bytes.drop off).findIdx? (· == 0)).map (s.bytes.drop off).take

end Section

/-- The `section_names` that are read. -/
inductive SectionName where
  | info | abbrevs | line | str | ranges
  deriving DecidableEq

/-- `link_object_t`; `id` tells its address from those of others. -/
structure LinkObject where
  id : Nat
  slide : Nat := 0
  getSection : SectionName → Section

/-- `link_object_t::make_reference`. -/
def LinkObject.makeReference (lo : LinkObject) (off : Nat) : Reference :=
  { resolver := .linkObject lo.id, offset := off }

/-! ### Compile units -/

/-- What `fatal` ends the process with. -/
inductive Fatal where
  | badUnitLength (length : Nat)
  | badVersion (version : Nat)
  | badAddrsize (addrsize : Nat)
  | noAbbrev (code : Nat)
  | cantHandle (form : Nat)
  deriving DecidableEq

/-- Why a loop has no result: the process ended, or the fuel that bounds its rounds here did. -/
inductive Stop where
  | fatal (f : Fatal)
  | outOfFuel
  deriving DecidableEq

/-- `compile_unit_t`; its `index` tells its address from those of others. -/
structure CompileUnit where
  index : Nat
  linkObject : LinkObject
  version : Nat := 0
  is64 : Bool := false
  reader : Reader := .null
  offset : Nat := 0
  abbrevsOffset : Nat := 0
  abbrevs : List (Option Abbrev) := []

/-- `header_length`. -/
def headerLength : Nat := 11

/-- `MIN_DWARF_VERSION`. -/
def minDwarfVersion : Nat := 2
/-- `MAX_DWARF_VERSION`. -/
def maxDwarfVersion : Nat := 4

/-- `(unsigned)(header_length-(is64 ? 14 : 6))`, where the difference is negative in the 64-bit
format. -/
def minUnitLength (is64 : Bool) : Nat :=
  if is64 then (headerLength + 2 ^ 32 - 14) % 2 ^ 32 else (headerLength + 2 ^ 32 - 6) % 2 ^ 32

/-- What `read_header` adds to the length for the length field itself. -/
def lengthFieldSize (is64 : Bool) : Nat := if is64 then 12 else 4

/-- `vector::resize`, with null pointers. -/
def resize (abbrevs : List (Option Abbrev)) (n : Nat) : List (Option Abbrev) :=
  abbrevs.take n ++ List.replicate (n - abbrevs.length) none

/-- What `read_abbrevs` does with an abbreviation it has read. -/
def setAbbrev (abbrevs : List (Option Abbrev)) (a : Abbrev) : List (Option Abbrev) :=
  (if a.code ≥ abbrevs.length then resize abbrevs ((a.code + 1) % 2 ^ 32) else abbrevs).set
    a.code (some a)

/-- The loop of `read_abbrevs`.  A round reads at least one byte. -/
def readAbbrevsLoop : Nat → List (Option Abbrev) → Reader → List (Option Abbrev) × Reader
  | 0,     abbrevs, r => (abbrevs, r)
  | n + 1, abbrevs, r =>
      match Read.readUleb128 r with
      | (none, r₁)      => (abbrevs, r₁)
      | (some code, r₁) =>
          -- code 0 indicates end of compile unit
          if code = 0 then (abbrevs, r₁)
          else
            match Abbrev.read code r₁ with
            | (none, r₂)   => (abbrevs, r₂)
            | (some a, r₂) => readAbbrevsLoop n (setAbbrev abbrevs a) r₂

namespace CompileUnit

/-- `get_start_offset`. -/
def getStartOffset (cu : CompileUnit) : Nat := cu.offset

/-- `get_end_offset`. -/
def getEndOffset (cu : CompileUnit) : Nat := cu.offset + cu.reader.getLength

/-- `make_reference`: offsets have 32 bits. -/
def makeReference (cu : CompileUnit) (off : Nat) : Reference :=
  { resolver := .compileUnit cu.index, offset := off % 2 ^ 32 }

/-- `make_root_reference`. -/
def makeRootReference (cu : CompileUnit) : Reference :=
  { resolver := .compileUnit cu.index, offset := headerLength }

/-- `compile_unit_t::get_contents`: a reader behind the header. -/
def getContents (cu : CompileUnit) : Reader := (Read.skip headerLength cu.reader).2

/-- `get_abbrev`: the slots of the vector may be empty. -/
def getAbbrev (cu : CompileUnit) (code : Nat) : Option Abbrev :=
  if code ≥ cu.abbrevs.length then none else (cu.abbrevs[code]?).join

/-- `read_header`: the unit, or `none` for `false`, and the section's reader. -/
def readHeader (cu : CompileUnit) (r : Reader) : Except Fatal (Option CompileUnit × Reader) :=
  match Read.readInitialLength r with
  | (none, r₁) => .ok (none, r₁)
  | (some (length, is64), r₁) =>
      if length > r₁.getRemains then .error (.badUnitLength length)
      else
        match Read.readU16 r₁ with
        | (none, r₂) => .ok (none, r₂)
        | (some version, r₂) =>
            if version < minDwarfVersion ∨ version > maxDwarfVersion then
              .error (.badVersion version)
            else if length < minUnitLength is64 then .error (.badUnitLength length)
            else
              match (do
                let abbrevsOffset ← Read.readU32
                let addrsize ← Read.readU8
                return (abbrevsOffset, addrsize) : Read (Nat × Nat)) r₂ with
              | (none, r₃) => .ok (none, r₃)
              | (some (abbrevsOffset, addrsize), r₃) =>
                  if addrsize ≠ Read.addrsize then .error (.badAddrsize addrsize)
                  else
                    let total := (length + lengthFieldSize is64) % 2 ^ 64
                    .ok (some {
                        cu with
                        version := version
                        is64 := is64
                        reader := Reader.initialSubset { r with is64 := is64 } total
                        offset := r.getOffset
                        abbrevsOffset := abbrevsOffset },
                      (Read.skip ((total + (2 ^ 64 - headerLength)) % 2 ^ 64) r₃).2)

/-- `read_abbrevs`: the unit, and the reader of `.debug_abbrev`. -/
def readAbbrevs (cu : CompileUnit) (r : Reader) : CompileUnit × Reader :=
  let r₁ := (Read.seek cu.abbrevsOffset r).2
  let (abbrevs, r₂) := readAbbrevsLoop (r₁.rest.length + 1) cu.abbrevs r₁
  ({ cu with abbrevs := abbrevs }, r₂)

end CompileUnit

end NovaProva.Dwarf
