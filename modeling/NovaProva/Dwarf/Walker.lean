import NovaProva.Dwarf.CompileUnit
import Mathlib.Logic.Function.Basic

/-!
# Dwarf — Walker

`entry.hxx` and `walker.cxx`: a walker reads the entries of a compile unit one after the other into
an entry of its own, whose attribute slots it never clears: a slot counts only if its generation is
the entry's latest.  Entries the filter does not let through are skipped without being read.
-/

namespace NovaProva.Dwarf

/-! ### Entries -/

/-- `DW_AT_max_basic`, `DW_AT_lo_user` and `DW_AT_max_user`. -/
def dwAtMaxBasic : Nat := 0x6f
/-- `DW_AT_lo_user`. -/
def dwAtLoUser : Nat := 0x2000
/-- `DW_AT_max_user`. -/
def dwAtMaxUser : Nat := 0x2008

/-- `entry_t`. -/
structure Entry where
  offset : Nat := 0
  level : Nat := 0
  abbrev? : Option Abbrev := none
  latest : Nat := 0
  generation : Nat → Nat := fun _ => 0
  values : Nat → Value := fun _ => .undef

namespace Entry

/-- `name_to_index`; `none` for a negative index. -/
def nameToIndex (name : Nat) : Option Nat :=
  if name < dwAtMaxBasic then some name
  else if name ≥ dwAtLoUser ∧ name < dwAtMaxUser then some (dwAtMaxBasic + name - dwAtLoUser)
  else none

/-- `setup`: the attributes of the entry before are forgotten. -/
def setup (e : Entry) (offset level : Nat) (a : Abbrev) : Entry :=
  { e with
    offset := offset % 2 ^ 32
    level := level
    abbrev? := some a
    latest := (e.latest + 1) % 2 ^ 32 }

/-- `partial_setup`, which keeps them. -/
def partialSetup (e : Entry) (offset level : Nat) (a : Abbrev) : Entry :=
  { e with offset := offset % 2 ^ 32, level := level, abbrev? := some a }

/-- `add_attribute`, for an attribute that has a place among the values. -/
def addAttribute (e : Entry) (name : Nat) (val : Value) : Entry :=
  match nameToIndex name with
  | none   => e
  | some i =>
      { e with
        values := Function.update e.values i val
        generation := Function.update e.generation i e.latest }

/-- `get_tag`. -/
def getTag (e : Entry) : Nat := (e.abbrev?.map (·.tag)).getD 0

/-- `get_attribute`: a value of this entry, not one of an entry before it. -/
def getAttribute (e : Entry) (name : Nat) : Option Value :=
  match nameToIndex name with
  | none   => none
  | some i => if e.generation i = e.latest then some (e.values i) else none

end Entry

/-! ### Attributes -/

/-- The offset of a `DW_FORM_strp`. -/
def readStrpOffset (cu : CompileUnit) : Read Nat :=
  if cu.version = 2 then Read.readU32 else Read.readOffset

/-- How `read_attributes` reads a form, `none` for a form it can't handle. -/
def readForm (cu : CompileUnit) : Form → Option (Read Value)
  | .data1 => some do
      let v ← Read.readU8
      return .uint32 v
  | .data2 => some do
      let v ← Read.readU16
      return .uint32 v
  | .data4 => some do
      let v ← Read.readU32
      return .uint32 v
  | .data8 | .refSig8 => some do
      let v ← Read.readU64
      return .uint64 v
  | .udata => some do
      let v ← Read.readUleb128
      return .uint32 v
  | .sdata => some do
      let v ← Read.readSleb128
      return .sint32 v
  | .addr => some do
      let v ← Read.readAddr
      return .makeAddr v
  | .flag => some do
      let v ← Read.readU8
      return .uint32 v
  | .ref1 => some do
      let off ← Read.readU8
      return .ref (cu.makeReference off)
  | .ref2 => some do
      let off ← Read.readU16
      return .ref (cu.makeReference off)
  | .ref4 => some do
      let off ← Read.readU32
      return .ref (cu.makeReference off)
  | .ref8 => some do
      let off ← Read.readU64
      return .ref (cu.makeReference off)
  | .refAddr => some do
      let off ← Read.readOffset
      return .ref (cu.linkObject.makeReference off)
  | .string => some do
      let v ← Read.readString
      return .string v
  | .strp => some do
      let off ← readStrpOffset cu
      match (cu.linkObject.getSection .str).offsetAsString off with
      | none   => Read.fail
      | some v => return .string v
  | .block1 => some do
      let len ← Read.readU8
      let v ← Read.readBytes len
      return .bytes v
  | .block2 => some do
      let len ← Read.readU16
      let v ← Read.readBytes len
      return .bytes v
  | .block4 => some do
      let len ← Read.readU32
      let v ← Read.readBytes len
      return .bytes v
  | .block | .exprloc => some do
      let len ← Read.readUleb128
      let v ← Read.readBytes len
      return .bytes v
  | .secOffset => some do
      let v ← Read.readOffset
      return .makeOffset v
  | .flagPresent => some do
      return .uint32 1
  | .refUdata | .indirect => none

/-- How `skip_attributes` skips a form. -/
def skipForm (cu : CompileUnit) : Form → Option (Read Unit)
  | .data1 | .flag | .ref1 => some Read.skipU8
  | .data2 | .ref2 => some Read.skipU16
  | .data4 | .ref4 => some Read.skipU32
  | .data8 | .ref8 => some Read.skipU64
  | .udata => some Read.skipUleb128
  | .sdata => some Read.skipSleb128
  | .addr => some Read.skipAddr
  | .refAddr => some Read.skipOffset
  | .string => some Read.skipString
  | .strp => some (if cu.version = 2 then Read.skipU32 else Read.skipOffset)
  | .block1 => some do
      let len ← Read.readU8
      Read.skipBytes len
  | .block2 => some do
      let len ← Read.readU16
      Read.skipBytes len
  | .block4 => some do
      let len ← Read.readU32
      Read.skipBytes len
  | .block | .exprloc => some do
      let len ← Read.readUleb128
      Read.skipBytes len
  -- these two go on whether or not the bytes are there
  | .secOffset => some (Read.ignore Read.skipOffset)
  | .refSig8 => some (Read.ignore Read.skipU64)
  | .flagPresent => some (return ())
  | .refUdata | .indirect => none

/-! ### The walker -/

/-- `read_entry_results_t`. -/
inductive ReadEntryResult where
  | eof | eol | ok | filtered
  deriving DecidableEq

/-- `walker_t`. -/
structure Walker where
  compileUnit : CompileUnit
  reader : Reader
  entry : Entry := {}
  level : Nat := 0
  filterTag : Nat := 0

namespace Walker

/-- The constructor from a compile unit. -/
def ofUnit (cu : CompileUnit) : Walker := { compileUnit := cu, reader := cu.getContents }

/-- `set_filter_tag`. -/
def setFilterTag (w : Walker) (tag : Nat) : Walker := { w with filterTag := tag }

/-- The loop of `read_attributes`. -/
def readAttributes : List AttrSpec → Walker → Except Fatal (ReadEntryResult × Walker)
  | [],      w => .ok (.ok, w)
  | i :: is, w =>
      match (Form.ofCode i.form).bind (readForm w.compileUnit) with
      | none   => .error (.cantHandle i.form)
      | some x =>
          match x w.reader with
          | (none, r)   => .ok (.eof, { w with reader := r })
          | (some v, r) =>
              readAttributes is { w with reader := r, entry := w.entry.addAttribute i.name v }

/-- The loop of `skip_attributes`. -/
def skipAttributes : List AttrSpec → Walker → Except Fatal (ReadEntryResult × Walker)
  | [],      w => .ok (.ok, w)
  | i :: is, w =>
      match (Form.ofCode i.form).bind (skipForm w.compileUnit) with
      | none   => .error (.cantHandle i.form)
      | some x =>
          match x w.reader with
          | (none, r)    => .ok (.eof, { w with reader := r })
          | (some (), r) => skipAttributes is { w with reader := r }

/-- The part of `read_entry` that reads or skips the attributes of an entry with abbreviation `a`
at `offset`. -/
def readBody (w : Walker) (offset : Nat) (a : Abbrev) : Except Fatal (ReadEntryResult × Walker) :=
  if w.filterTag ≠ 0 ∧ a.tag ≠ w.filterTag then
    match skipAttributes a.attrSpecs { w with entry := w.entry.partialSetup offset w.level a } with
    | .ok (.ok, w') => .ok (.filtered, w')
    | res           => res
  else
    readAttributes a.attrSpecs { w with entry := w.entry.setup offset w.level a }

/-- `read_entry`. -/
def readEntry (w : Walker) : Except Fatal (ReadEntryResult × Walker) :=
  match Read.readUleb128 w.reader with
  -- end of section
  | (none, r)       => .ok (.eof, { w with reader := r })
  | (some acode, r) =>
      if acode = 0 then
        -- end of subtree in scope
        if w.level = 0 then .ok (.eof, { w with reader := r })
        else .ok (.eol, { w with reader := r, level := w.level - 1 })
      else
        match w.compileUnit.getAbbrev acode with
        | none   => .error (.noAbbrev acode)
        | some a =>
            match readBody { w with reader := r } w.reader.getOffset a with
            | .error f      => .error f
            | .ok (res, w') =>
                .ok (res, if a.children ≠ 0 then { w' with level := w'.level + 1 } else w')

/-- `move_preorder`: whether an entry was found.  The fuel bounds the calls of `read_entry`. -/
def movePreorder : Nat → Walker → Except Stop (Bool × Walker)
  | 0,     _ => .error .outOfFuel
  | n + 1, w =>
      match w.readEntry with
      | .error f      => .error (.fatal f)
      | .ok (.eof, w') => .ok (false, w')
      | .ok (.ok, w')  => .ok (true, w')
      | .ok (_, w')    => movePreorder n w'

/-- What the accessors of an entry return. -/
structure EntryView where
  offset : Nat
  level : Nat
  tag : Nat
  getAttribute : Nat → Option Value

/-- The walker's entry as a caller of `move_preorder` sees it. -/
def view (w : Walker) : EntryView :=
  { offset := w.entry.offset
    level := w.entry.level
    tag := w.entry.getTag
    getAttribute := w.entry.getAttribute }

/-- The entries `move_preorder` returns one after the other until it returns 0. -/
def preorder : Nat → Walker → Except Stop (List EntryView)
  | 0,     _ => .error .outOfFuel
  | n + 1, w =>
      match movePreorder (n + 1) w with
      | .error e        => .error e
      | .ok (false, _)  => .ok []
      | .ok (true, w')  =>
          match preorder n w' with
          | .error e => .error e
          | .ok es   => .ok (w'.view :: es)

/-! ### What a walker keeps -/

section
variable {specs : List AttrSpec} {w w' : Walker} {res : ReadEntryResult}

theorem readAttributes_compileUnit (h : readAttributes specs w = .ok (res, w')) :
    w'.compileUnit = w.compileUnit := by
  induction specs generalizing w with
  | nil =>
      cases h
      rfl
  | cons i is ih =>
      rw [readAttributes] at h
      split at h
      · cases h
      · split at h
        · cases h
          rfl
        · exact (ih h).trans rfl

theorem skipAttributes_compileUnit (h : skipAttributes specs w = .ok (res, w')) :
    w'.compileUnit = w.compileUnit := by
  induction specs generalizing w with
  | nil =>
      cases h
      rfl
  | cons i is ih =>
      rw [skipAttributes] at h
      split at h
      · cases h
      · split at h
        · cases h
          rfl
        · exact (ih h).trans rfl

theorem readBody_compileUnit {offset : Nat} {a : Abbrev} (h : readBody w offset a = .ok (res, w')) :
    w'.compileUnit = w.compileUnit := by
  rw [readBody] at h
  split at h
  · split at h
    next w₁ hskip =>
      cases h
      exact (skipAttributes_compileUnit hskip).trans rfl
    · exact (skipAttributes_compileUnit h).trans rfl
  · exact (readAttributes_compileUnit h).trans rfl

theorem readEntry_compileUnit (h : readEntry w = .ok (res, w')) :
    w'.compileUnit = w.compileUnit := by
  rw [readEntry] at h
  split at h
  · cases h
    rfl
  · split at h
    · split at h
      · cases h
        rfl
      · cases h
        rfl
    · split at h
      · cases h
      · split at h
        · cases h
        next w₁ hbody =>
          have hkeep := readBody_compileUnit hbody
          cases h
          split
          · exact hkeep
          · exact hkeep

/-- A walker stays in its compile unit. -/
theorem movePreorder_compileUnit {n : Nat} {found : Bool} (h : movePreorder n w = .ok (found, w')) :
    w'.compileUnit = w.compileUnit := by
  induction n generalizing w with
  | zero => cases h
  | succ n ih =>
      rw [movePreorder] at h
      split at h
      · cases h
      next hread =>
        cases h
        exact readEntry_compileUnit hread
      next hread =>
        cases h
        exact readEntry_compileUnit hread
      next hread =>
        exact (ih h).trans (readEntry_compileUnit hread)

end

end Walker

end NovaProva.Dwarf
