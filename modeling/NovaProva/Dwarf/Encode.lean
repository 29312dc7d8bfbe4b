import NovaProva.Dwarf.CompileUnit
import NovaProva.Dwarf.Numbers

/-!
# Dwarf — Encoding

How the DWARF standard writes a compile unit: trees of debugging entries over a table of
abbreviations, in versions 2 to 4 and, from version 3 on, in the 32-bit or the 64-bit format.  The
numbers in LEB128 stand as they are written, padded or not.
-/

namespace NovaProva.Dwarf

/-- A version of DWARF and a format it knows. -/
structure Format where
  version : Nat
  is64 : Bool
  two_le : 2 ≤ version
  le_four : version ≤ 4
  three_le_of_is64 : is64 = true → 3 ≤ version
  deriving DecidableEq

namespace Format

/-- Versions 2 and 4 in the 32-bit format, and version 3 in the 64-bit format. -/
def two : Format := ⟨2, false, by decide, by decide, by decide⟩
/-- Version 4, 32-bit. -/
def four : Format := ⟨4, false, by decide, by decide, by decide⟩
/-- Version 3, 64-bit. -/
def three64 : Format := ⟨3, true, by decide, by decide, by decide⟩

theorem two_is64 : two.is64 = false := rfl
theorem four_is64 : four.is64 = false := rfl

/-- The size of an offset into a section. -/
def offsetSize (fmt : Format) : Nat := Dwarf.offsetSize fmt.is64

/-- `DW_FORM_ref_addr` has the size of an address in version 2, and of an offset later. -/
def refAddrSize (fmt : Format) : Nat :=
  if fmt.version = 2 then Read.addrsize else fmt.offsetSize

end Format

/-! ### Attributes -/

/-- An attribute's value as it is written. -/
inductive Operand where
  | addr (v : UInt64)
  | block1 (bs : List UInt8)
  | block2 (bs : List UInt8)
  | block4 (bs : List UInt8)
  | block (len : Leb) (bs : List UInt8)
  | exprloc (len : Leb) (bs : List UInt8)
  | data1 (v : UInt8)
  | data2 (v : UInt16)
  | data4 (v : UInt32)
  | data8 (v : UInt64)
  | udata (v : Leb)
  | sdata (v : Leb)
  | flag (v : UInt8)
  | flagPresent
  | string (s : List UInt8)
  | strp (off : UInt64)
  | ref1 (off : UInt8)
  | ref2 (off : UInt16)
  | ref4 (off : UInt32)
  | ref8 (off : UInt64)
  | refAddr (off : UInt64)
  | refSig8 (v : UInt64)
  | secOffset (off : UInt64)
  | refUdata (off : Leb)
  /-- the form of the operand behind it comes first -/
  | indirect (form : Leb) (op : Operand)
  deriving DecidableEq

namespace Operand

/-- The form of an operand. -/
def form : Operand → Form
  | addr _       => .addr
  | block1 _     => .block1
  | block2 _     => .block2
  | block4 _     => .block4
  | block _ _    => .block
  | exprloc _ _  => .exprloc
  | data1 _      => .data1
  | data2 _      => .data2
  | data4 _      => .data4
  | data8 _      => .data8
  | udata _      => .udata
  | sdata _      => .sdata
  | flag _       => .flag
  | flagPresent  => .flagPresent
  | string _     => .string
  | strp _       => .strp
  | ref1 _       => .ref1
  | ref2 _       => .ref2
  | ref4 _       => .ref4
  | ref8 _       => .ref8
  | refAddr _    => .refAddr
  | refSig8 _    => .refSig8
  | secOffset _  => .secOffset
  | refUdata _   => .refUdata
  | indirect _ _ => .indirect

/-- The bytes of an operand. -/
def encode (fmt : Format) : Operand → List UInt8
  | addr v         => Bytes.leBytes 8 v.toNat
  | block1 bs      => Bytes.leBytes 1 bs.length ++ bs
  | block2 bs      => Bytes.leBytes 2 bs.length ++ bs
  | block4 bs      => Bytes.leBytes 4 bs.length ++ bs
  | block len bs   => len.bytes ++ bs
  | exprloc len bs => len.bytes ++ bs
  | data1 v        => Bytes.leBytes 1 v.toNat
  | data2 v        => Bytes.leBytes 2 v.toNat
  | data4 v        => Bytes.leBytes 4 v.toNat
  | data8 v        => Bytes.leBytes 8 v.toNat
  | udata v        => v.bytes
  | sdata v        => v.bytes
  | flag v         => Bytes.leBytes 1 v.toNat
  | flagPresent    => []
  | string s       => s ++ [0]
  | strp off       => Bytes.leBytes fmt.offsetSize off.toNat
  | ref1 off       => Bytes.leBytes 1 off.toNat
  | ref2 off       => Bytes.leBytes 2 off.toNat
  | ref4 off       => Bytes.leBytes 4 off.toNat
  | ref8 off       => Bytes.leBytes 8 off.toNat
  | refAddr off    => Bytes.leBytes fmt.refAddrSize off.toNat
  | refSig8 v      => Bytes.leBytes 8 v.toNat
  | secOffset off  => Bytes.leBytes fmt.offsetSize off.toNat
  | refUdata off   => off.bytes
  | indirect f op  => f.bytes ++ encode fmt op

/-- The value an operand stands for in the unit `index` of the link object `lo`. -/
def value (lo : LinkObject) (index : Nat) : Operand → Value
  | addr v        => .makeAddr v.toNat
  | block1 bs     => .bytes bs
  | block2 bs     => .bytes bs
  | block4 bs     => .bytes bs
  | block _ bs    => .bytes bs
  | exprloc _ bs  => .bytes bs
  | data1 v       => .uint32 v.toNat
  | data2 v       => .uint32 v.toNat
  | data4 v       => .uint32 v.toNat
  | data8 v       => .uint64 v.toNat
  | udata v       => .uint32 v.toNat
  | sdata v       => .sint32 v.toInt
  | flag v        => .uint32 v.toNat
  | flagPresent   => .uint32 1
  | string s      => .string s
  | strp off      => .string (((lo.getSection .str).offsetAsString off.toNat).getD [])
  | ref1 off      => .ref { resolver := .compileUnit index, offset := off.toNat }
  | ref2 off      => .ref { resolver := .compileUnit index, offset := off.toNat }
  | ref4 off      => .ref { resolver := .compileUnit index, offset := off.toNat }
  | ref8 off      => .ref { resolver := .compileUnit index, offset := off.toNat }
  | refAddr off   => .ref { resolver := .linkObject lo.id, offset := off.toNat }
  | refSig8 v     => .uint64 v.toNat
  | secOffset off => .makeOffset off.toNat
  | refUdata off  => .ref { resolver := .compileUnit index, offset := off.toNat }
  | indirect _ op => value lo index op

/-- An operand in a form that is read, as it can be written in the format `fmt`: strings without
NUL, offsets of strings that end in `.debug_str`, and references inside a unit, which is shorter
than `2 ^ 32`.  LEB128 numbers are of any length.  The references of version 2, which are as wide as
addresses, are left out. -/
def Spelled (fmt : Format) (lo : LinkObject) : Operand → Prop
  | block1 bs      => bs.length < 256 ^ 1
  | block2 bs      => bs.length < 256 ^ 2
  | block4 bs      => bs.length < 256 ^ 4
  | block len bs   => len.toNat = bs.length ∧ bs.length < 2 ^ 32
  | exprloc len bs => len.toNat = bs.length ∧ bs.length < 2 ^ 32
  | string s       => 0 ∉ s
  | strp off       => off.toNat < 256 ^ fmt.offsetSize ∧
      ((lo.getSection .str).offsetAsString off.toNat).isSome
  | ref8 off       => off.toNat < 2 ^ 32
  | refAddr off    => fmt.version ≠ 2 ∧ off.toNat < 256 ^ fmt.offsetSize
  | secOffset off  => off.toNat < 256 ^ fmt.offsetSize
  | refUdata _     => False
  | indirect _ _   => False
  | _              => True

/-- An operand in one of the forms that `read_attributes` can handle. -/
def Handled (op : Operand) : Prop := op.form ≠ .refUdata ∧ op.form ≠ .indirect

/-- An operand that can be written in the format `fmt`; nothing is asked of those that are not
handled. -/
def Writable (fmt : Format) (lo : LinkObject) (op : Operand) : Prop :=
  op.Handled → op.Spelled fmt lo

/-- What `read_attributes` makes of an operand. -/
def readValue (lo : LinkObject) (index : Nat) : Operand → Value
  | udata v => .uint32 (lebRead v Read.lebStart).vv
  | sdata v => .sint32 (Read.signExtend (lebRead v Read.lebStart))
  | op      => op.value lo index

/-- A LEB128 number that 32 bits can hold, and that does not lose its sign.  All numbers of at most
four bytes are such. -/
def ReadBack : Operand → Prop
  | udata v => v.toNat < 2 ^ 32
  | sdata v => leastSigned v.length ≤ v.toInt ∧ v.toInt < 2 ^ 31
  | _       => True

/-- An operand that can be written in the format `fmt` and is read back. -/
def Valid (fmt : Format) (lo : LinkObject) (op : Operand) : Prop := op.Spelled fmt lo ∧ op.ReadBack

end Operand

/-! ### Abbreviations -/

/-- A declaration of the abbreviation table, its numbers as they are written. -/
structure AbbrevDecl where
  code : Leb
  tag : Leb
  children : Bool
  specs : List (Leb × Leb)
  deriving DecidableEq

/-- A LEB128 number that fits into 32 bits. -/
def Leb32 (l : Leb) : Prop := l.toNat < 2 ^ 32

instance (l : Leb) : Decidable (Leb32 l) := inferInstanceAs (Decidable (l.toNat < 2 ^ 32))

namespace AbbrevDecl

/-- The name and the form of an attribute. -/
def encodeSpec (spec : Leb × Leb) : List UInt8 := spec.1.bytes ++ spec.2.bytes

/-- The bytes of a declaration. -/
def encode (d : AbbrevDecl) : List UInt8 :=
  d.code.bytes ++ (d.tag.bytes ++ (Bytes.leBytes 1 d.children.toNat ++
    (d.specs.flatMap encodeSpec ++ [0, 0])))

/-- What the declaration is read as. -/
def toAbbrev (d : AbbrevDecl) : Abbrev where
  code := d.code.toNat
  tag := d.tag.toNat
  children := d.children.toNat
  attrSpecs := d.specs.map fun spec => { name := spec.1.toNat, form := spec.2.toNat }

/-- Numbers that fit into 32 bits, and none that ends the table or the list of attributes. -/
structure Valid (d : AbbrevDecl) : Prop where
  code : Leb32 d.code
  code_pos : 0 < d.code.toNat
  /-- `abbrevs_` is resized to one more -/
  code_lt : d.code.toNat < 2 ^ 32 - 1
  tag : Leb32 d.tag
  specs : ∀ spec ∈ d.specs, Leb32 spec.1 ∧ Leb32 spec.2 ∧
    ¬ (spec.1.toNat = 0 ∧ spec.2.toNat = 0)

end AbbrevDecl

/-- A table of abbreviations as it is written, up to the code 0. -/
def encodeTable (table : List AbbrevDecl) : List UInt8 :=
  table.flatMap AbbrevDecl.encode ++ [0]

/-- The abbreviation with a code; of several, the last. -/
def lookupAbbrev (table : List AbbrevDecl) (code : Nat) : Option Abbrev :=
  (table.reverse.find? (·.code.toNat = code)).map AbbrevDecl.toAbbrev

/-! ### Entries -/

/-- A debugging entry: the code of its abbreviation, and a value for each of its attributes. -/
structure Die where
  code : Leb
  operands : List Operand
  deriving DecidableEq

/-- A list of siblings, each with the list of its children. -/
inductive Dies where
  | nil
  | cons (die : Die) (children siblings : Dies)
  deriving DecidableEq

namespace Die

/-- The bytes of an entry, without its children. -/
def encode (fmt : Format) (d : Die) : List UInt8 :=
  d.code.bytes ++ d.operands.flatMap (Operand.encode fmt)

/-- The entry has the abbreviation `a`, and operands of its forms that all satisfy `P`. -/
structure Fits (P : Operand → Prop) (table : List AbbrevDecl) (d : Die) (a : Abbrev) : Prop where
  lookup : lookupAbbrev table d.code.toNat = some a
  forms : a.attrSpecs.map (·.form) = d.operands.map (·.form.code)
  operands : ∀ op ∈ d.operands, P op

/-- The entry has the abbreviation `a` and can be written with it. -/
abbrev Spelled (fmt : Format) (lo : LinkObject) (table : List AbbrevDecl) (d : Die)
    (a : Abbrev) : Prop :=
  d.Fits (Operand.Spelled fmt lo) table a

/-- The entry can be written with the abbreviation `a` and is read back. -/
abbrev Valid (fmt : Format) (lo : LinkObject) (table : List AbbrevDecl) (d : Die)
    (a : Abbrev) : Prop :=
  d.Fits (Operand.Valid fmt lo) table a

/-- Whether the entry's abbreviation says that it has children. -/
def hasChildren (table : List AbbrevDecl) (d : Die) : Bool :=
  match lookupAbbrev table d.code.toNat with
  | none   => false
  | some a => a.children ≠ 0

end Die

namespace Dies

variable (fmt : Format) (lo : LinkObject) (table : List AbbrevDecl)

/-- The children of an entry end with a null entry, if its abbreviation says that it has any. -/
def encode : Dies → List UInt8
  | nil => []
  | cons die children siblings =>
      die.encode fmt ++ ((if die.hasChildren table then children.encode ++ [0] else []) ++
        siblings.encode)

/-- Every entry has an abbreviation and operands that satisfy `P`, and children only if its
abbreviation says so. -/
def Fits (P : Operand → Prop) : Dies → Prop
  | nil => True
  | cons die children siblings =>
      (∃ a, die.Fits P table a) ∧ (die.hasChildren table = false → children = nil) ∧
        children.Fits P ∧ siblings.Fits P

/-- Entries that can be written down. -/
abbrev Spelled (ds : Dies) : Prop := ds.Fits table (Operand.Spelled fmt lo)

/-- Entries that are read back too. -/
abbrev Valid (ds : Dies) : Prop := ds.Fits table (Operand.Valid fmt lo)

end Dies

/-! ### Units -/

/-- A tree of entries. -/
structure Tree where
  root : Die
  children : Dies

namespace Tree

variable (fmt : Format) (lo : LinkObject) (table : List AbbrevDecl)

/-- The entries of a unit. -/
def encode (tree : Tree) : List UInt8 :=
  tree.root.encode fmt ++
    if tree.root.hasChildren table then tree.children.encode fmt table ++ [0] else []

/-- Every entry has an abbreviation and operands that satisfy `P`, and children only if its
abbreviation says so. -/
structure Fits (P : Operand → Prop) (tree : Tree) : Prop where
  root : ∃ a, tree.root.Fits P table a
  leaf : tree.root.hasChildren table = false → tree.children = .nil
  children : tree.children.Fits table P

/-- A tree in forms that are read, as it can be written in the format `fmt`. -/
abbrev Spelled (tree : Tree) : Prop := tree.Fits table (Operand.Spelled fmt lo)

/-- A tree that can be written in the format `fmt`. -/
abbrev Writable (tree : Tree) : Prop := tree.Fits table (Operand.Writable fmt lo)

/-- A tree whose forms `read_attributes` can all handle. -/
abbrev Handled (tree : Tree) : Prop := tree.Fits table Operand.Handled

/-- The entries of a unit whose root has children. -/
def body (tree : Tree) : List UInt8 :=
  tree.root.encode fmt ++ (tree.children.encode fmt table ++ [0])

/-- A tree whose root has children, that can be written in the format `fmt` and is read back. -/
structure Valid (tree : Tree) : Prop where
  root : ∃ a, tree.root.Valid fmt lo table a
  hasChildren : tree.root.hasChildren table = true
  children : tree.children.Valid fmt lo table

end Tree

/-- The `unit_length` field, with the escape of the 64-bit format. -/
def encodeLength (is64 : Bool) (length : Nat) : List UInt8 :=
  if is64 then Bytes.leBytes 4 0xffffffff ++ Bytes.leBytes 8 length
  else Bytes.leBytes 4 length

/-- What follows the `unit_length` field. -/
def encodeContents (fmt : Format) (abbrevOffset : Nat) (body : List UInt8) : List UInt8 :=
  Bytes.leBytes 2 fmt.version ++ (Bytes.leBytes fmt.offsetSize abbrevOffset ++
    (Bytes.leBytes 1 Read.addrsize ++ body))

/-- A compile unit whose abbreviations are at `abbrevOffset` in `.debug_abbrev`. -/
def encodeUnit (fmt : Format) (abbrevOffset : Nat) (body : List UInt8) : List UInt8 :=
  let contents := encodeContents fmt abbrevOffset body
  encodeLength fmt.is64 contents.length ++ contents

end NovaProva.Dwarf
