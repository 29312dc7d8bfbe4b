import NovaProva.Dwarf.Moves
import NovaProva.Dwarf.Formats
import NovaProva.Dwarf.LineUnits
import NovaProva.Spiegel.Ranges
import Mathlib.Data.List.Forall2

/-!
# Spiegel — Loading compile units

`state_t::read_compile_units`: the compile units of `.debug_info` are read one after the other, and
with each the next line number program of `.debug_line`.  `DW_AT_stmt_list`, which says where the
program of a unit is, is not looked at: a unit gets the right program exactly if the programs stand
in the order of the units, with one for each up to the last unit (`readCompileUnits_attached_iff`).
-/

namespace NovaProva.Dwarf

/-- `DW_AT_name`. -/
def dwAtName : Nat := 0x03
/-- `DW_AT_stmt_list`. -/
def dwAtStmtList : Nat := 0x10
/-- `DW_AT_language`. -/
def dwAtLanguage : Nat := 0x13
/-- `DW_AT_comp_dir`. -/
def dwAtCompDir : Nat := 0x1b

namespace Entry

/-- `get_string_attribute`, with `none` for a null pointer. -/
def getStringAttribute (e : Entry) (name : Nat) : Option (List UInt8) :=
  match e.getAttribute name with
  | some (.string v) => some v
  | _                => none

/-- `get_uint32_attribute`. -/
def getUint32Attribute (e : Entry) (name : Nat) : Nat :=
  match e.getAttribute name with
  | some (.uint32 v) => v
  | _                => 0

end Entry

/-- What `read_attributes` takes from the root entry. -/
structure UnitAttributes where
  filename : Option Filename
  compilationDirectory : Option Filename
  lowPc : Nat
  highPc : Nat
  language : Nat

namespace CompileUnit

/-- `walker_t w(make_root_reference())`; the reference is one into the unit itself. -/
def rootWalker (cu : CompileUnit) : Walker :=
  { compileUnit := cu, reader := (Read.seek headerLength cu.getContents).2 }

/-- `compile_unit_t::read_attributes`, with `none` for `false`; `cus` are the units there are. -/
def readAttributes (cus : List CompileUnit) (cu : CompileUnit) :
    Except MoveError (Option UnitAttributes) := do
  let (found, w) ← cu.rootWalker.moveNext cus (cu.reader.bytes.length + 1)
  if found then
    return some {
      filename := w.entry.getStringAttribute dwAtName
      compilationDirectory := w.entry.getStringAttribute dwAtCompDir
      lowPc := w.entry.getUint64Attribute dwAtLowPc
      highPc := w.entry.getUint64Attribute dwAtHighPc
      language := w.entry.getUint32Attribute dwAtLanguage }
  else return none

end CompileUnit

/-- `compile_unit_t` as `read_compile_units` leaves it. -/
structure LoadedUnit where
  unit : CompileUnit
  attributes : UnitAttributes
  linenoProgram : LinenoProgram

/-- `compile_unit_t::read_lineno_program`. -/
def UnitAttributes.readLinenoProgram (attributes : UnitAttributes) (r : Reader) :
    Except Fatal (Option LinenoProgram × Reader) :=
  LinenoProgram.readHeader { compilationDirectory := attributes.compilationDirectory } r

/-- What a round of the loop of `read_compile_units` does behind `read_header`: the unit to push,
with the readers of `.debug_info`, `.debug_abbrev` and `.debug_line` behind it, or `none` for a
`break`. -/
def CompileUnit.readRest (units : List LoadedUnit) (cu : CompileUnit)
    (infor abbrevr liner : Reader) :
    Except MoveError (Option (LoadedUnit × Reader × Reader × Reader)) :=
  match (cu.readAbbrevs abbrevr).1.readAttributes (units.map LoadedUnit.unit) with
  | .error e              => .error e
  | .ok none              => .ok none
  | .ok (some attributes) =>
      match attributes.readLinenoProgram liner with
      | .error f              => .error (.fatal f)
      | .ok (none, _)         => .ok none
      | .ok (some lp, liner') => .ok (some
          ({ unit := (cu.readAbbrevs abbrevr).1, attributes := attributes, linenoProgram := lp },
           infor, (cu.readAbbrevs abbrevr).2, liner'))

/-- A round of the loop. -/
def readUnit (lo : LinkObject) (units : List LoadedUnit) (infor abbrevr liner : Reader) :
    Except MoveError (Option (LoadedUnit × Reader × Reader × Reader)) :=
  match CompileUnit.readHeader { index := units.length, linkObject := lo } infor with
  | .error f              => .error (.fatal f)
  | .ok (none, _)         => .ok none
  | .ok (some cu, infor') => cu.readRest units infor' abbrevr liner

/-- The loop of `read_compile_units`.  A round reads at least one byte of `.debug_info`. -/
def readCompileUnitsLoop (lo : LinkObject) :
    Nat → List LoadedUnit → Reader → Reader → Reader → Except MoveError (List LoadedUnit)
  | 0,     _,     _,     _,       _     => .error .outOfFuel
  | n + 1, units, infor, abbrevr, liner =>
      match readUnit lo units infor abbrevr liner with
      | .error e   => .error e
      | .ok none   => .ok units
      | .ok (some (cu, infor', abbrevr', liner')) =>
          readCompileUnitsLoop lo n (units ++ [cu]) infor' abbrevr' liner'

/-- `read_compile_units`: the units of the state behind it. -/
def readCompileUnits (lo : LinkObject) (units : List LoadedUnit) :
    Except MoveError (List LoadedUnit) :=
  readCompileUnitsLoop lo ((lo.getSection .info).bytes.length + 1) units
    (lo.getSection .info).getContents (lo.getSection .abbrevs).getContents
    (lo.getSection .line).getContents

/-! ### Units with the offset of a program -/

/-- A compile unit of either format: its root entry, with the abbreviations of the unit, and what
follows it. -/
structure InfoUnit where
  fmt : Format
  abbrevOffset : Nat
  table : List AbbrevDecl
  root : Die
  rest : List UInt8
  abbrevOffset_lt : abbrevOffset < 2 ^ 32
  /-- lengths from 0xfffffff0 on are reserved in the 32-bit format -/
  length_lt : fmt.is64 = false →
    (encodeContents fmt abbrevOffset (root.encode fmt ++ rest)).length < 0xfffffff0

namespace InfoUnit

/-- The bytes of the unit. -/
def encode (u : InfoUnit) : List UInt8 :=
  encodeUnit u.fmt u.abbrevOffset (u.root.encode u.fmt ++ u.rest)

/-- The unit's `DW_AT_stmt_list`, if it has one. -/
def stmtList (u : InfoUnit) : Option Nat :=
  (lookupAbbrev u.table u.root.code.toNat).bind fun a =>
    (attr a.attrSpecs u.root.operands dwAtStmtList).map Operand.number

/-- The abbreviations are where the unit says, and the root entry is made with one of them. -/
structure Valid (lo : LinkObject) (u : InfoUnit) : Prop where
  abbrevs_valid : ∀ d ∈ u.table, d.Valid
  abbrevOffset_le : u.abbrevOffset ≤ (lo.getSection .abbrevs).bytes.length
  abbrevs_eq : ∃ t, (lo.getSection .abbrevs).bytes.drop u.abbrevOffset = encodeTable u.table ++ t
  root_valid : ∃ a, u.root.Valid u.fmt lo u.table a

theorem length_lt_toUnit32 (u : InfoUnit) (h : u.fmt.is64 = false) :
    (u.root.encode u.fmt ++ u.rest).length + 7 < 0xfffffff0 := by
  have hlt := u.length_lt h
  have hsize : u.fmt.offsetSize = 4 := by
    rw [Format.offsetSize, h]
    rfl
  simp only [encodeContents, List.length_append, Bytes.length_leBytes, hsize] at hlt ⊢
  omega

/-- A unit of the 32-bit format. -/
def toUnit32 (u : InfoUnit) (h : u.fmt.is64 = false) : Unit32 where
  fmt := u.fmt
  abbrevOffset := u.abbrevOffset
  body := u.root.encode u.fmt ++ u.rest
  not_is64 := h
  abbrevOffset_lt := u.abbrevOffset_lt
  length_lt := u.length_lt_toUnit32 h

end InfoUnit

/-! ### One unit -/

/-- A read moves the reader within its buffer. -/
def Read.Keeps {α : Type} (x : Read α) : Prop := ∀ r, (x r).2.bytes = r.bytes

namespace Read.Keeps

variable {α β : Type}

/-- Nothing is read. -/
theorem pure (v : α) : Keeps (Pure.pure v : Read α) := fun _ => rfl

/-- One thing is read after the other. -/
theorem bind {x : Read α} {f : α → Read β} (hx : Keeps x) (hf : ∀ v, Keeps (f v)) :
    Keeps (x >>= f) := by
  intro r
  rcases h : x r with ⟨_ | v, r'⟩
  · rw [Read.bind_none h]
    exact (congrArg (fun q => q.2.bytes) h).symm.trans (hx r)
  · rw [Read.bind_some h, hf v r']
    exact (congrArg (fun q => q.2.bytes) h).symm.trans (hx r)

/-- A LEB128 is read. -/
theorem readUleb128 : Keeps Read.readUleb128 := by
  intro r
  unfold Read.readUleb128
  split <;> rfl

/-- A byte is read. -/
theorem readU8 : Keeps Read.readU8 := by
  intro r
  unfold Read.readU8
  split <;> rfl

/-- The specifications of attributes are read. -/
theorem readAttrSpecs (n : Nat) : Keeps (readAttrSpecs n) := by
  induction n with
  | zero => exact fun _ => rfl
  | succ n ih =>
      refine readUleb128.bind fun name => readUleb128.bind fun form => ?_
      split
      · exact pure _
      · exact ih.bind fun specs => pure _

/-- An abbreviation is read. -/
theorem abbrevRead (code : Nat) : Keeps (Abbrev.read code) :=
  readUleb128.bind fun _ => readU8.bind fun _ =>
    bind (fun r => readAttrSpecs (r.rest.length + 1) r) fun _ => pure _

end Read.Keeps

/-- The loop over abbreviations keeps the buffer. -/
theorem readAbbrevsLoop_bytes (n : Nat) (abbrevs : List (Option Abbrev)) (r : Reader) :
    (readAbbrevsLoop n abbrevs r).2.bytes = r.bytes := by
  induction n generalizing abbrevs r with
  | zero => rfl
  | succ n ih =>
      rw [readAbbrevsLoop]
      have hcode := Read.Keeps.readUleb128 r
      rcases hread : Read.readUleb128 r with ⟨_ | code, r₁⟩ <;> rw [hread] at hcode
      · exact hcode
      dsimp only at hcode ⊢
      split
      · exact hcode
      · have habbrev := Read.Keeps.abbrevRead code r₁
        rcases hread' : Abbrev.read code r₁ with ⟨_ | a, r₂⟩ <;> rw [hread'] at habbrev
        · exact habbrev.trans hcode
        · exact (ih _ r₂).trans (habbrev.trans hcode)

/-- `read_abbrevs` keeps the buffer. -/
theorem readAbbrevs_bytes (cu : CompileUnit) (r : Reader) :
    (cu.readAbbrevs r).2.bytes = r.bytes := by
  have hseek : (Read.seek cu.abbrevsOffset r).2.bytes = r.bytes := by
    unfold Read.seek
    split <;> rfl
  rw [CompileUnit.readAbbrevs]
  exact (readAbbrevsLoop_bytes _ _ _).trans hseek

/-- A walker at the root of its unit stays there. -/
theorem rootWalker_eq {cu : CompileUnit}
    (h : cu.getContents.p = cu.getContents.base + headerLength) :
    cu.rootWalker = Walker.ofUnit cu := by
  have hseek : (Read.seek headerLength cu.getContents).2 = cu.getContents := by
    unfold Read.seek
    split
    · rfl
    · rw [← h]
      exact Reader.setP_self _
  rw [CompileUnit.rootWalker, hseek]
  rfl

/-- The attributes of a unit whose root entry can be read. -/
theorem readAttributes_root {lo : LinkObject} {u : InfoUnit} (hu : u.Valid lo) {cu : CompileUnit}
    {index : Nat} (cus : List CompileUnit)
    (h : Ready u.fmt lo index u.table 0 (Walker.ofUnit cu) headerLength 0
      (u.root.encode u.fmt ++ u.rest))
    (hb : BlocksInside u.fmt u.root.operands u.rest) :
    ∃ attributes, cu.readAttributes cus = .ok (some attributes) := by
  obtain ⟨a, hroot⟩ := hu.root_valid
  obtain ⟨w', hread, hview, -⟩ :=
    readEntry_read hu.abbrevs_valid hroot.spelled h hb (fun hne => hne.1 rfl)
  have hlevel : w'.entry.level = 0 := congrArg Walker.EntryView.level hview
  have hmove : cu.rootWalker.moveNext cus (cu.reader.bytes.length + 1) = .ok (true, w') := by
    rw [rootWalker_eq h.offset]
    change Walker.moveNextLoop 0 _ (Walker.ofUnit cu) = _
    rw [Walker.moveNextLoop, if_neg (Nat.not_lt_zero _), hread]
    dsimp only
    rw [if_pos hlevel]
  rw [CompileUnit.readAttributes, hmove]
  exact ⟨_, rfl⟩

/-- The attributes of a unit that ends with a block of its root entry cannot be read. -/
theorem readAttributes_root_block_end {lo : LinkObject} {u : InfoUnit} (hu : u.Valid lo)
    {cu : CompileUnit} {index : Nat} (cus : List CompileUnit)
    (h : Ready u.fmt lo index u.table 0 (Walker.ofUnit cu) headerLength 0
      (u.root.encode u.fmt ++ u.rest))
    (hb : ¬ BlocksInside u.fmt u.root.operands u.rest) : cu.readAttributes cus = .ok none := by
  obtain ⟨a, hroot⟩ := hu.root_valid
  obtain ⟨w', hread⟩ := readEntry_block_end hu.abbrevs_valid hroot.spelled h hb
  have hmove : cu.rootWalker.moveNext cus (cu.reader.bytes.length + 1) = .ok (false, w') := by
    rw [rootWalker_eq h.offset]
    change Walker.moveNextLoop 0 _ (Walker.ofUnit cu) = _
    rw [Walker.moveNextLoop, if_neg (Nat.not_lt_zero _), hread]
  rw [CompileUnit.readAttributes, hmove]
  rfl

/-- The low bytes of a number that has no others. -/
theorem leBytes_eight_of_lt {n : Nat} (h : n < 2 ^ 32) :
    Bytes.leBytes 8 n = Bytes.leBytes 4 n ++ (Bytes.leBytes 1 0 ++ Bytes.leBytes 3 0) := by
  have hdiv : n / 256 / 256 / 256 / 256 = 0 := by
    omega
  simp only [Bytes.leBytes, hdiv]
  rfl

/-- A unit of the 64-bit format is not read: its length is compared with a negative number, and
of its eight bytes of an offset the fifth is taken for the size of an address. -/
theorem readHeader_ne_of_is64 {u : InfoUnit} (h64 : u.fmt.is64 = true) {r : Reader}
    {post : List UInt8} (hr : r.At (u.encode ++ post)) (cu cu' : CompileUnit) (r' : Reader) :
    cu.readHeader r ≠ .ok (some cu', r') := by
  intro h
  have hend := hr.end_eq
  have hlt := r.end_lt
  have hsize : u.fmt.offsetSize = 8 := by
    rw [Format.offsetSize, h64]
    rfl
  generalize hlen : (encodeContents u.fmt u.abbrevOffset (u.root.encode u.fmt ++ u.rest)).length
    = length at *
  have henc : u.encode ++ post = (Bytes.leBytes 4 0xffffffff ++ Bytes.leBytes 8 length) ++
      (Bytes.leBytes 2 u.fmt.version ++ ((Bytes.leBytes 4 u.abbrevOffset ++ Bytes.leBytes 1 0) ++
        (Bytes.leBytes 3 0 ++ (Bytes.leBytes 1 Read.addrsize ++
          (u.root.encode u.fmt ++ u.rest ++ post))))) := by
    rw [InfoUnit.encode, encodeUnit, hlen, encodeLength, if_pos h64, encodeContents, hsize,
      leBytes_eight_of_lt u.abbrevOffset_lt]
    simp only [List.append_assoc]
  rw [henc] at hr hend
  -- the length and the version
  have hfits : length < 256 ^ 8 := by
    rw [encodeContents, hsize] at hlen
    simp only [List.length_append, Bytes.length_leBytes] at hlen hend
    omega
  have hread₁ := (Reads.readInitialLength64 hfits).run hr
  have hat₁ := hr.setP
  have hread₂ := (Reads.readU16 (v := u.fmt.version) (by have := u.fmt.le_four; omega)).run hat₁
  have hat₂ := hat₁.setP
  -- the offset of the abbreviations, cut, and then a zero
  have hread₃ := ((Reads.readU32 u.abbrevOffset_lt).bind
    (f := fun a => do let s ← Read.readU8; return (a, s))
    ((Reads.readU8 (v := 0) (by decide)).map fun s => (u.abbrevOffset, s))).run hat₂
  unfold CompileUnit.readHeader at h
  rw [hread₁] at h
  dsimp only at h
  rw [hread₂] at h
  dsimp only at h
  rw [hread₃] at h
  dsimp only at h
  rw [if_pos (by decide : (0 : Nat) ≠ Read.addrsize)] at h
  split at h
  · cases h
  split at h
  · cases h
  split at h <;> cases h

/-! ### Offsets of programs -/

/-- The reader of `.debug_line` at an offset. -/
def lineReader (lo : LinkObject) (off : Nat) : Reader :=
  (Read.seek off (lo.getSection .line).getContents).2

/-- The program of the unit is the one whose header starts at the offset. -/
def LoadedUnit.AttachedAt (lo : LinkObject) (cu : LoadedUnit) (off : Nat) : Prop :=
  ∃ r, cu.attributes.readLinenoProgram (lineReader lo off) = .ok (some cu.linenoProgram, r)

/-- The unit is loaded, with the program at its `DW_AT_stmt_list` if it has one. -/
def LoadedRight (lo : LinkObject) (u : InfoUnit) (cu : LoadedUnit) : Prop :=
  cu.unit.reader.bytes = u.encode ∧ ∀ off ∈ u.stmtList, cu.AttachedAt lo off

/-- The sections of a link object are made of these compile units and line units, and every
`DW_AT_stmt_list` is the offset of a line unit. -/
structure HasUnits (lo : LinkObject) (us : List InfoUnit) (ls : List LineUnit) : Prop where
  info_eq : (lo.getSection .info).bytes = us.flatMap InfoUnit.encode
  line_eq : (lo.getSection .line).bytes = ls.flatMap LineUnit.encode
  units_valid : ∀ u ∈ us, u.Valid lo
  lines_fit : ∀ l ∈ ls, l.Fits
  stmtList_mem : ∀ u ∈ us, ∀ off ∈ u.stmtList, ∃ pre l post,
    ls = pre ++ l :: post ∧ off = (pre.flatMap LineUnit.encode).length

/-- The units and the programs from `off` on, in step: each unit is of the 32-bit format and does
not end with a block of its root entry, and it has a program, which is the one its
`DW_AT_stmt_list` says if it has one. -/
def InStep : Nat → List InfoUnit → List LineUnit → Prop
  | _,   [],      _       => True
  | _,   _ :: _,  []      => False
  | off, u :: us, l :: ls =>
      (u.fmt.is64 = false ∧ BlocksInside u.fmt u.root.operands u.rest) ∧
        (∀ o ∈ u.stmtList, o = off) ∧ InStep (off + l.encode.length) us ls

/-- Units and programs are in step if the `i`-th unit says that its program is the `i`-th. -/
theorem inStep_iff {off : Nat} {us : List InfoUnit} {ls : List LineUnit} :
    InStep off us ls ↔ us.length ≤ ls.length ∧ ∀ (i : Nat) (hi : i < us.length),
      (us[i].fmt.is64 = false ∧ BlocksInside us[i].fmt us[i].root.operands us[i].rest) ∧
      ∀ o ∈ us[i].stmtList, o = off + ((ls.take i).flatMap LineUnit.encode).length := by
  induction us generalizing off ls with
  | nil =>
      refine ⟨fun _ => ⟨Nat.zero_le _, fun i hi => ?_⟩, fun _ => trivial⟩
      exact absurd hi (Nat.not_lt_zero i)
  | cons u us ih =>
      cases ls with
      | nil => exact ⟨False.elim, fun h => absurd h.1 (Nat.not_succ_le_zero _)⟩
      | cons l ls =>
          have hoff : ∀ i, off + (((l :: ls).take (i + 1)).flatMap LineUnit.encode).length =
              off + l.encode.length + ((ls.take i).flatMap LineUnit.encode).length := by
            intro i
            rw [List.take_succ_cons, List.flatMap_cons, List.length_append, Nat.add_assoc]
          rw [InStep, ih]
          constructor
          · rintro ⟨hloads, hfirst, hlen, hrest⟩
            refine ⟨Nat.succ_le_succ hlen, fun i hi => ?_⟩
            cases i with
            | zero => exact ⟨hloads, hfirst⟩
            | succ i =>
                rw [hoff]
                exact hrest i (Nat.lt_of_succ_lt_succ hi)
          · rintro ⟨hlen, hall⟩
            obtain ⟨hloads, hfirst⟩ := hall 0 (Nat.zero_lt_succ _)
            refine ⟨hloads, hfirst, Nat.le_of_succ_le_succ hlen, fun i hi => ?_⟩
            have hi' := hall (i + 1) (Nat.succ_lt_succ hi)
            rw [hoff] at hi'
            exact hi'

section
variable {lo : LinkObject} {us : List InfoUnit} {ls : List LineUnit}

/-- Where a line unit and those behind it are. -/
theorem at_lineReader (h : HasUnits lo us ls) {pre post : List LineUnit} (hls : ls = pre ++ post) :
    (lineReader lo (pre.flatMap LineUnit.encode).length).At (post.flatMap LineUnit.encode) := by
  have hbytes : (lo.getSection .line).getContents.bytes =
      pre.flatMap LineUnit.encode ++ post.flatMap LineUnit.encode := by
    rw [← List.flatMap_append, ← hls]
    exact h.line_eq
  have hat := (lo.getSection .line).getContents.at_seek
    (n := (pre.flatMap LineUnit.encode).length) (by rw [hbytes, List.length_append]; omega)
  rwa [hbytes, List.drop_left] at hat

/-- The reader at one of the programs. -/
theorem lineReader_eq (h : HasUnits lo us ls) {pre post : List LineUnit} (hls : ls = pre ++ post) :
    lineReader lo (pre.flatMap LineUnit.encode).length =
      (lo.getSection .line).getContents.setP
        ((lo.getSection .line).getContents.base + (pre.flatMap LineUnit.encode).length) := by
  have hle : (pre.flatMap LineUnit.encode).length ≤
      (lo.getSection .line).getContents.bytes.length := by
    change _ ≤ (lo.getSection .line).bytes.length
    rw [h.line_eq, hls, List.flatMap_append, List.length_append]
    exact Nat.le_add_right _ _
  rw [lineReader, Reader.seek_eq _ hle]

/-- Behind a line unit is the next one. -/
theorem lineReader_next (h : HasUnits lo us ls) {pre post : List LineUnit} {l : LineUnit}
    (hls : ls = pre ++ l :: post) :
    (lineReader lo (pre.flatMap LineUnit.encode).length).setP
        ((lineReader lo (pre.flatMap LineUnit.encode).length).p + l.encode.length) =
      lineReader lo ((pre ++ [l]).flatMap LineUnit.encode).length := by
  have hls' : ls = (pre ++ [l]) ++ post := by
    rw [hls, List.append_cons]
  rw [lineReader_eq h hls, lineReader_eq h hls', Reader.setP_setP, List.flatMap_append,
    List.length_append, ← Nat.add_assoc]
  simp

/-- A program has more than its length. -/
theorem LineUnit.initialLength_lt (l : LineUnit) : l.initialLength.length < l.encode.length := by
  have hlen := l.length_contents
  rw [encode, List.length_append]
  omega

/-- The bytes of a unit start behind those of the unit before it. -/
theorem offset_eq_of_start_eq {pre pre' post post' : List LineUnit} {l l' : LineUnit}
    (hls : pre ++ l :: post = pre' ++ l' :: post')
    (h : (pre.flatMap LineUnit.encode).length + l.initialLength.length =
      (pre'.flatMap LineUnit.encode).length + l'.initialLength.length) :
    (pre.flatMap LineUnit.encode).length = (pre'.flatMap LineUnit.encode).length := by
  have hl := l.initialLength_lt
  have hl' := l'.initialLength_lt
  rcases List.append_eq_append_iff.mp hls with ⟨as, hpre, hpost⟩ | ⟨as, hpre, hpost⟩
  · cases as with
    | nil => rw [hpre, List.append_nil]
    | cons x as =>
        cases hpost
        rw [hpre, List.flatMap_append, List.length_append, List.flatMap_cons,
          List.length_append] at h
        omega
  · cases as with
    | nil => rw [hpre, List.append_nil]
    | cons x as =>
        cases hpost
        rw [hpre, List.flatMap_append, List.length_append, List.flatMap_cons,
          List.length_append] at h
        omega

/-- The program at the offset of a line unit. -/
theorem readLinenoProgram_at (h : HasUnits lo us ls) {pre post : List LineUnit} {l : LineUnit}
    (hls : ls = pre ++ l :: post) (attributes : UnitAttributes) :
    attributes.readLinenoProgram (lineReader lo (pre.flatMap LineUnit.encode).length) =
      .ok (some (l.loaded { compilationDirectory := attributes.compilationDirectory }
          (lineReader lo (pre.flatMap LineUnit.encode).length)),
        lineReader lo ((pre ++ [l]).flatMap LineUnit.encode).length) := by
  have hat := at_lineReader h hls
  rw [List.flatMap_cons] at hat
  rw [← lineReader_next h hls]
  exact l.readHeader_lineUnit (h.lines_fit l (by simp [hls])) _ hat

theorem LineUnit.loaded_base (l : LineUnit) (p : LinenoProgram) (r : Reader) :
    (l.loaded p r).reader.base = (r.setP (r.p + l.initialLength.length)).p := rfl

/-- The reader of a unit starts behind the unit's length. -/
theorem loaded_start (h : HasUnits lo us ls) {pre post : List LineUnit} {l : LineUnit}
    (hls : ls = pre ++ l :: post) (p : LinenoProgram) :
    (l.loaded p (lineReader lo (pre.flatMap LineUnit.encode).length)).reader.base =
      (lo.getSection .line).map + (pre.flatMap LineUnit.encode).length +
        l.initialLength.length := by
  have hfits := (lo.getSection .line).fits
  rw [h.line_eq, hls, List.flatMap_append, List.flatMap_cons, List.length_append,
    List.length_append] at hfits
  have hlt := l.initialLength_lt
  rw [l.loaded_base, lineReader_eq h hls, Reader.setP_setP, Section.getContents_base]
  exact Reader.setP_p _ (by omega)

/-- A unit that has got a program has got the one at that offset only. -/
theorem attachedAt_iff (h : HasUnits lo us ls) {pre post : List LineUnit} {l : LineUnit}
    (hls : ls = pre ++ l :: post) {cu : LoadedUnit}
    (hcu : cu.linenoProgram = l.loaded
      { compilationDirectory := cu.attributes.compilationDirectory }
      (lineReader lo (pre.flatMap LineUnit.encode).length))
    {pre' post' : List LineUnit} {l' : LineUnit} (hls' : ls = pre' ++ l' :: post') :
    cu.AttachedAt lo (pre'.flatMap LineUnit.encode).length ↔
      (pre'.flatMap LineUnit.encode).length = (pre.flatMap LineUnit.encode).length := by
  constructor
  · rintro ⟨r, hr⟩
    rw [readLinenoProgram_at h hls', hcu] at hr
    have hprog := Option.some.inj (Prod.mk.inj (Except.ok.inj hr)).1
    have hbase := congrArg (fun p : LinenoProgram => p.reader.base) hprog
    simp only [loaded_start h hls', loaded_start h hls] at hbase
    exact (offset_eq_of_start_eq (hls.symm.trans hls') (by omega)).symm
  · intro heq
    refine ⟨lineReader lo ((pre ++ [l]).flatMap LineUnit.encode).length, ?_⟩
    rw [heq, hcu]
    exact readLinenoProgram_at h hls _

end

/-! ### The loop -/

section
variable {lo : LinkObject} {n : Nat} {units : List LoadedUnit} {infor abbrevr liner : Reader}

/-- A round that reads nothing ends the loop. -/
theorem readCompileUnitsLoop_break (h : readUnit lo units infor abbrevr liner = .ok none) :
    readCompileUnitsLoop lo (n + 1) units infor abbrevr liner = .ok units := by
  rw [readCompileUnitsLoop, h]

/-- A round that reads a unit goes on behind it. -/
theorem readCompileUnitsLoop_push {cu : LoadedUnit} {infor' abbrevr' liner' : Reader}
    (h : readUnit lo units infor abbrevr liner = .ok (some (cu, infor', abbrevr', liner'))) :
    readCompileUnitsLoop lo (n + 1) units infor abbrevr liner =
      readCompileUnitsLoop lo n (units ++ [cu]) infor' abbrevr' liner' := by
  rw [readCompileUnitsLoop, h]

/-- **The rule of the loop**: what every unit that is pushed keeps holds at the end. -/
theorem readCompileUnitsLoop_invariant {I : List LoadedUnit → Reader → Prop}
    (hI : ∀ {units infor abbrevr liner cu infor' abbrevr' liner'}, I units infor →
      readUnit lo units infor abbrevr liner = .ok (some (cu, infor', abbrevr', liner')) →
      I (units ++ [cu]) infor')
    (hstart : I units infor) {units' : List LoadedUnit}
    (h : readCompileUnitsLoop lo n units infor abbrevr liner = .ok units') :
    ∃ infor', I units' infor' := by
  induction n generalizing units infor abbrevr liner with
  | zero =>
      rw [readCompileUnitsLoop] at h
      cases h
  | succ n ih =>
      rcases hround : readUnit lo units infor abbrevr liner with
        e | _ | ⟨cu, infor', abbrevr', liner'⟩
      · rw [readCompileUnitsLoop, hround] at h
        cases h
      · rw [readCompileUnitsLoop_break hround] at h
        cases h
        exact ⟨infor, hstart⟩
      · rw [readCompileUnitsLoop_push hround] at h
        exact ih (hI hstart hround) h

/-- The units that are there stay. -/
theorem readCompileUnitsLoop_prefix {units' : List LoadedUnit}
    (h : readCompileUnitsLoop lo n units infor abbrevr liner = .ok units') : units <+: units' := by
  obtain ⟨-, hprefix⟩ := readCompileUnitsLoop_invariant (I := fun us _ => units <+: us)
    (fun hus _ => hus.trans (List.prefix_append _ _)) List.prefix_rfl h
  exact hprefix

end

section
variable {lo : LinkObject} {us : List InfoUnit} {ls : List LineUnit}

/-- A round over a unit of the 32-bit format gets over its header. -/
theorem readUnit_info (h : HasUnits lo us ls) {u : InfoUnit} (hu : u ∈ us)
    (h32 : u.fmt.is64 = false) {infor abbrevr : Reader} {post : List UInt8}
    (hinfo : infor.At (u.encode ++ post))
    (habbrev : abbrevr.bytes = (lo.getSection .abbrevs).bytes) (units : List LoadedUnit) :
    ∃ cu : CompileUnit, cu.reader.bytes = u.encode ∧
      Ready u.fmt lo units.length u.table 0 (Walker.ofUnit (cu.readAbbrevs abbrevr).1)
        headerLength 0 (u.root.encode u.fmt ++ u.rest) ∧
      ∀ liner, readUnit lo units infor abbrevr liner =
        cu.readRest units (infor.setP (infor.p + u.encode.length)) abbrevr liner := by
  have hvalid := h.units_valid u hu
  obtain ⟨t, habbrevs⟩ := hvalid.abbrevs_eq
  have henc : (u.toUnit32 h32).encode = u.encode := rfl
  rw [← henc] at hinfo
  have hheader := readHeader_unit32 (u.toUnit32 h32)
    { index := units.length, linkObject := lo } hinfo
  have hle : (u.toUnit32 h32).abbrevOffset ≤ abbrevr.bytes.length := by
    rw [habbrev]
    exact hvalid.abbrevOffset_le
  have hdrop : abbrevr.bytes.drop (u.toUnit32 h32).abbrevOffset = encodeTable u.table ++ t := by
    rw [habbrev]
    exact habbrevs
  have hready := ready_ofUnit lo hvalid.abbrevs_valid hinfo hle hdrop units.length 0
  have hbytes := (u.toUnit32 h32).loaded_bytes { index := units.length, linkObject := lo } hinfo
  generalize (u.toUnit32 h32).loaded { index := units.length, linkObject := lo } infor = cu at *
  refine ⟨cu, hbytes, hready, fun liner => ?_⟩
  rw [readUnit, hheader, henc]

/-- A round over a unit that can be read comes to its line number program. -/
theorem readUnit_attributes (h : HasUnits lo us ls) {u : InfoUnit} (hu : u ∈ us)
    (h32 : u.fmt.is64 = false) (hb : BlocksInside u.fmt u.root.operands u.rest)
    {infor abbrevr : Reader} {post : List UInt8} (hinfo : infor.At (u.encode ++ post))
    (habbrev : abbrevr.bytes = (lo.getSection .abbrevs).bytes) (units : List LoadedUnit) :
    ∃ (cu : CompileUnit) (attributes : UnitAttributes) (infor' abbrevr' : Reader),
      infor'.At post ∧ infor'.end_ = infor.end_ ∧
      abbrevr'.bytes = (lo.getSection .abbrevs).bytes ∧ cu.reader.bytes = u.encode ∧
      ∀ liner, readUnit lo units infor abbrevr liner =
        match attributes.readLinenoProgram liner with
        | .error f              => .error (.fatal f)
        | .ok (none, _)         => .ok none
        | .ok (some lp, liner') => .ok (some
            ({ unit := cu, attributes := attributes, linenoProgram := lp },
             infor', abbrevr', liner')) := by
  obtain ⟨cu, hbytes, hready, hround⟩ := readUnit_info h hu h32 hinfo habbrev units
  have hroot : ∃ attributes, (cu.readAbbrevs abbrevr).1.readAttributes
      (units.map LoadedUnit.unit) = .ok (some attributes) :=
    readAttributes_root (h.units_valid u hu) _ hready hb
  obtain ⟨attributes, hattrs⟩ := hroot
  refine ⟨(cu.readAbbrevs abbrevr).1, attributes, infor.setP (infor.p + u.encode.length),
    (cu.readAbbrevs abbrevr).2, hinfo.setP, rfl, (readAbbrevs_bytes cu abbrevr).trans habbrev,
    hbytes, fun liner => ?_⟩
  rw [hround]
  unfold CompileUnit.readRest
  rw [hattrs]

/-- A round over a unit that ends with a block of its root entry reads nothing. -/
theorem readUnit_block_end (h : HasUnits lo us ls) {u : InfoUnit} (hu : u ∈ us)
    (h32 : u.fmt.is64 = false) (hb : ¬ BlocksInside u.fmt u.root.operands u.rest)
    {infor abbrevr : Reader} {post : List UInt8} (hinfo : infor.At (u.encode ++ post))
    (habbrev : abbrevr.bytes = (lo.getSection .abbrevs).bytes) (units : List LoadedUnit)
    (liner : Reader) : readUnit lo units infor abbrevr liner = .ok none := by
  obtain ⟨cu, -, hready, hround⟩ := readUnit_info h hu h32 hinfo habbrev units
  have hroot : (cu.readAbbrevs abbrevr).1.readAttributes (units.map LoadedUnit.unit) = .ok none :=
    readAttributes_root_block_end (h.units_valid u hu) _ hready hb
  rw [hround]
  unfold CompileUnit.readRest
  rw [hroot]

/-- A round over a unit of the 64-bit format reads nothing. -/
theorem readUnit_ne_of_is64 (lo : LinkObject) {u : InfoUnit} (h64 : u.fmt.is64 = true)
    {infor : Reader} {post : List UInt8} (hinfo : infor.At (u.encode ++ post))
    (units : List LoadedUnit) (abbrevr liner : Reader) (x : LoadedUnit × Reader × Reader × Reader) :
    readUnit lo units infor abbrevr liner ≠ .ok (some x) := by
  intro h
  have hheader := readHeader_ne_of_is64 h64 hinfo { index := units.length, linkObject := lo }
  unfold readUnit at h
  rcases hread : CompileUnit.readHeader { index := units.length, linkObject := lo } infor with
    f | ⟨_ | cu, infor'⟩
  · rw [hread] at h
    cases h
  · rw [hread] at h
    cases h
  · exact hheader cu infor' hread

/-- A round over a unit that cannot be read, for either reason. -/
theorem readUnit_ne_of_not_loads (h : HasUnits lo us ls) {u : InfoUnit} (hu : u ∈ us)
    (hloads : ¬ (u.fmt.is64 = false ∧ BlocksInside u.fmt u.root.operands u.rest))
    {infor abbrevr : Reader} {post : List UInt8} (hinfo : infor.At (u.encode ++ post))
    (habbrev : abbrevr.bytes = (lo.getSection .abbrevs).bytes) (units : List LoadedUnit)
    (liner : Reader) (x : LoadedUnit × Reader × Reader × Reader) :
    readUnit lo units infor abbrevr liner ≠ .ok (some x) := by
  cases h64 : u.fmt.is64 with
  | true => exact readUnit_ne_of_is64 lo h64 hinfo units abbrevr liner x
  | false =>
      intro hx
      rw [readUnit_block_end h hu h64 (fun hb => hloads ⟨h64, hb⟩) hinfo habbrev] at hx
      cases hx

/-- At the end of the section there is nothing to read. -/
theorem readUnit_end (lo : LinkObject) {infor : Reader} (hinfo : infor.At [])
    (hend : infor.end_ < 2 ^ 63) (units : List LoadedUnit) (abbrevr liner : Reader) :
    readUnit lo units infor abbrevr liner = .ok none := by
  unfold readUnit
  rw [readHeader_end _ hinfo hend]

variable (lo) in
/-- The loop goes on to load the units `us'`, each with its own program, and nothing else. -/
def LoopLoads (n : Nat) (units : List LoadedUnit) (us' : List InfoUnit)
    (infor abbrevr liner : Reader) : Prop :=
  ∃ more, readCompileUnitsLoop lo n units infor abbrevr liner = .ok (units ++ more) ∧
    List.Forall₂ (LoadedRight lo) us' more

/-- A round that reads no unit ends the loop, with units still to load. -/
theorem not_loopLoads_of_readUnit {n : Nat} {units : List LoadedUnit} {u : InfoUnit}
    {infor abbrevr liner : Reader}
    (h : ∀ x, readUnit lo units infor abbrevr liner ≠ .ok (some x)) :
    ¬ LoopLoads lo (n + 1) units (u :: us) infor abbrevr liner := by
  rintro ⟨more, hloop, hright⟩
  rcases hround : readUnit lo units infor abbrevr liner with e | _ | x
  · rw [readCompileUnitsLoop, hround] at hloop
    cases hloop
  · rw [readCompileUnitsLoop_break hround] at hloop
    have hnil : more = [] := List.self_eq_append_right.mp (Except.ok.inj hloop)
    rw [hnil] at hright
    cases hright
  · exact h x hround

/-- A round that reads one. -/
theorem loopLoads_push_iff {n : Nat} {units : List LoadedUnit} {u : InfoUnit} {cu : LoadedUnit}
    {infor abbrevr liner infor' abbrevr' liner' : Reader}
    (hsome : readUnit lo units infor abbrevr liner = .ok (some (cu, infor', abbrevr', liner'))) :
    LoopLoads lo (n + 1) units (u :: us) infor abbrevr liner ↔
      LoadedRight lo u cu ∧ LoopLoads lo n (units ++ [cu]) us infor' abbrevr' liner' := by
  rw [LoopLoads, readCompileUnitsLoop_push hsome]
  constructor
  · rintro ⟨more, hloop, hall⟩
    obtain ⟨t, ht⟩ := readCompileUnitsLoop_prefix hloop
    rw [List.append_assoc, List.append_cancel_left_eq] at ht
    subst ht
    cases hall with
    | cons hcu hall =>
        refine ⟨hcu, t, ?_, hall⟩
        rw [hloop, List.append_assoc]
  · rintro ⟨hcu, t, hloop, hall⟩
    refine ⟨_ :: t, ?_, .cons hcu hall⟩
    rw [hloop, List.append_assoc]
    rfl

/-- Behind the last line unit there is no program. -/
theorem readLinenoProgram_end (h : HasUnits lo us ls) (attributes : UnitAttributes) :
    attributes.readLinenoProgram (lineReader lo (ls.flatMap LineUnit.encode).length) =
      .ok (none, lineReader lo (ls.flatMap LineUnit.encode).length) := by
  have hls : ls = ls ++ [] := (List.append_nil ls).symm
  refine LinenoProgram.readHeader_end _ (at_lineReader h hls) ?_
  rw [lineReader_eq h hls]
  exact (lo.getSection .line).fits

/-- A unit with the program at an offset is the right one if its `DW_AT_stmt_list` says so. -/
theorem loadedRight_iff (h : HasUnits lo us ls) {u : InfoUnit} (hu : u ∈ us)
    {pre post : List LineUnit} {l : LineUnit} (hls : ls = pre ++ l :: post) {cu : CompileUnit}
    (hcu : cu.reader.bytes = u.encode) (attributes : UnitAttributes) :
    LoadedRight lo u
        { unit := cu
          attributes := attributes
          linenoProgram := l.loaded
            { compilationDirectory := attributes.compilationDirectory }
            (lineReader lo (pre.flatMap LineUnit.encode).length) } ↔
      ∀ o ∈ u.stmtList, o = (pre.flatMap LineUnit.encode).length := by
  constructor
  · rintro ⟨-, hattached⟩ o ho
    obtain ⟨pre', l', post', hls', rfl⟩ := h.stmtList_mem u hu o ho
    exact (attachedAt_iff h hls rfl hls').mp (hattached _ ho)
  · intro hoff
    refine ⟨hcu, fun o ho => ?_⟩
    rw [hoff o ho]
    exact (attachedAt_iff h hls rfl hls).mpr rfl

/-- A unit has bytes. -/
theorem InfoUnit.length_encode_pos (u : InfoUnit) : 0 < u.encode.length := by
  rw [InfoUnit.encode, encodeUnit, encodeContents, List.length_append, List.length_append,
    List.length_append, Bytes.length_leBytes]
  omega

/-- **The loop over units that are still to load.** -/
theorem readCompileUnitsLoop_iff (h : HasUnits lo us ls) {us' : List InfoUnit}
    (hus : ∀ u ∈ us', u ∈ us) {pre ls' : List LineUnit} (hls : ls = pre ++ ls') {n : Nat}
    (hn : us'.length < n) (units : List LoadedUnit) {infor abbrevr : Reader}
    (hinfo : infor.At (us'.flatMap InfoUnit.encode)) (hend : infor.end_ < 2 ^ 63)
    (habbrev : abbrevr.bytes = (lo.getSection .abbrevs).bytes) :
    LoopLoads lo n units us' infor abbrevr
        (lineReader lo (pre.flatMap LineUnit.encode).length) ↔
      InStep (pre.flatMap LineUnit.encode).length us' ls' := by
  induction us' generalizing pre ls' n units infor abbrevr with
  | nil =>
      obtain ⟨n, rfl⟩ := Nat.exists_eq_succ_of_ne_zero (Nat.ne_of_gt hn)
      have hbreak := readCompileUnitsLoop_break (n := n) (readUnit_end lo hinfo hend units
        abbrevr (lineReader lo (pre.flatMap LineUnit.encode).length))
      refine ⟨fun _ => trivial, fun _ => ⟨[], ?_, .nil⟩⟩
      rw [hbreak, List.append_nil]
  | cons u us' ih =>
      obtain ⟨n, rfl⟩ := Nat.exists_eq_succ_of_ne_zero (Nat.ne_of_gt (Nat.zero_lt_of_lt hn))
      rw [List.flatMap_cons] at hinfo
      by_cases hloads : u.fmt.is64 = false ∧ BlocksInside u.fmt u.root.operands u.rest
      case neg =>
        -- the unit is not loaded, so that nothing is behind it either
        have hround := readUnit_ne_of_not_loads h (hus u List.mem_cons_self) hloads hinfo habbrev
          units (lineReader lo (pre.flatMap LineUnit.encode).length)
        refine iff_of_false (not_loopLoads_of_readUnit hround) fun hstep => ?_
        cases ls' with
        | nil => exact hstep
        | cons l ls' => exact hloads hstep.1
      case pos =>
        obtain ⟨cu, attributes, infor', abbrevr', hinfo', hend', habbrev', hbytes, hround⟩ :=
          readUnit_attributes h (hus u List.mem_cons_self) hloads.1 hloads.2 hinfo habbrev units
        cases ls' with
        | nil =>
            rw [List.append_nil] at hls
            have hnone := hround (lineReader lo (pre.flatMap LineUnit.encode).length)
            rw [← hls, readLinenoProgram_end h] at hnone
            refine iff_of_false (not_loopLoads_of_readUnit fun x hx => ?_) id
            rw [← hls, hnone] at hx
            cases hx
        | cons l ls' =>
            have hsome := hround (lineReader lo (pre.flatMap LineUnit.encode).length)
            rw [readLinenoProgram_at h hls] at hsome
            have hls' : ls = (pre ++ [l]) ++ ls' := by rw [hls, List.append_cons]
            have hoff : ((pre ++ [l]).flatMap LineUnit.encode).length =
                (pre.flatMap LineUnit.encode).length + l.encode.length := by simp
            have hrest := fun pushed => ih (fun v hv => hus v (List.mem_cons_of_mem u hv)) hls'
              (Nat.lt_of_succ_lt_succ hn) pushed hinfo' (hend'.trans_lt hend) habbrev'
            rw [loopLoads_push_iff hsome, hrest, hoff, InStep,
              loadedRight_iff h (hus u List.mem_cons_self) hls hbytes attributes,
              and_iff_right hloads]

/-- The whole loop, behind the units there are. -/
theorem readCompileUnits_inStep_iff (h : HasUnits lo us ls) (units : List LoadedUnit) :
    (∃ more, readCompileUnits lo units = .ok (units ++ more) ∧
      List.Forall₂ (LoadedRight lo) us more) ↔ InStep 0 us ls := by
  have hinfo := (lo.getSection .info).at_getContents
  rw [h.info_eq] at hinfo
  have hn : us.length < (lo.getSection .info).bytes.length + 1 := by
    rw [h.info_eq, Nat.lt_succ_iff]
    exact Bytes.length_le_length_flatMap InfoUnit.length_encode_pos us
  have hloop := readCompileUnitsLoop_iff h (fun _ hu => hu) (List.nil_append ls).symm hn units
    hinfo (lo.getSection .info).fits
    (show (lo.getSection .abbrevs).getContents.bytes = _ from rfl)
  have hline : lineReader lo (([] : List LineUnit).flatMap LineUnit.encode).length =
      (lo.getSection .line).getContents := by
    rw [lineReader_eq h (List.nil_append ls).symm]
    exact Reader.setP_self _
  rw [hline] at hloop
  exact hloop

/-- **Every unit is loaded with its own line number program** exactly if there is a program for
each, the unit can be read, and where a unit has a `DW_AT_stmt_list` it is the offset of the program
that is next when the unit is read. -/
theorem readCompileUnits_attached_iff (h : HasUnits lo us ls) :
    (∃ cus, readCompileUnits lo [] = .ok cus ∧ List.Forall₂ (LoadedRight lo) us cus) ↔
      us.length ≤ ls.length ∧ ∀ (i : Nat) (hi : i < us.length),
        (us[i].fmt.is64 = false ∧ BlocksInside us[i].fmt us[i].root.operands us[i].rest) ∧
        ∀ o ∈ us[i].stmtList, o = ((ls.take i).flatMap LineUnit.encode).length := by
  have hloop := readCompileUnits_inStep_iff h []
  rw [inStep_iff] at hloop
  simpa only [List.nil_append, Nat.zero_add] using hloop

end

/-! ### Two units and two programs -/

/-- A root entry with a `DW_AT_stmt_list`. -/
def stmtAbbrevs : List AbbrevDecl :=
  [{ code := .byte 1, tag := .byte 0x11, children := false, specs := [(.byte 0x10, .byte 0x17)] }]

/-- A root entry whose program is at an offset. -/
def stmtRoot (off : UInt64) : Die := { code := .byte 1, operands := [.secOffset off] }

theorem length_stmtRoot (off : UInt64) :
    (encodeContents .four 0 ((stmtRoot off).encode .four ++ [])).length < 0xfffffff0 := by
  have hlen : (encodeContents .four 0 ((stmtRoot off).encode .four ++ [])).length = 12 := rfl
  omega

/-- The offset 0 fits the 32-bit format. -/
theorem abbrevOffset_zero_lt : (0 : Nat) < 2 ^ 32 := Nat.two_pow_pos 32

/-- Its unit in version 4. -/
def stmtUnit (off : UInt64) : InfoUnit where
  fmt := .four
  abbrevOffset := 0
  table := stmtAbbrevs
  root := stmtRoot off
  rest := []
  abbrevOffset_lt := abbrevOffset_zero_lt
  length_lt := fun _ => length_stmtRoot off

/-- A line unit without files and without a program. -/
def noLines : LineUnit where
  is64 := false
  version := 4
  minimumInstructionLength := 1
  maximumOperations := 1
  defaultIsStmt := 1
  lineBase := 0xfb
  lineRange := 14
  opcodeBase := 1
  opcodeLengths := []
  directories := []
  files := []
  program := []
  two_le := minLinenoVersion_le_four
  le_four := four_le_maxLinenoVersion
  length_opcodeLengths := length_noOpcodes
  directories_named := noDirectories_named
  files_named := noFiles_named

theorem length_stmtUnits (off off' : UInt64) :
    4096 + ([stmtUnit off, stmtUnit off'].flatMap InfoUnit.encode).length < 2 ^ 63 := by
  have hlen : ([stmtUnit off, stmtUnit off'].flatMap InfoUnit.encode).length = 32 := rfl
  omega

theorem length_noLines :
    12288 + ([noLines, noLines].flatMap LineUnit.encode).length < 2 ^ 63 := by decide

theorem length_stmtAbbrevs : 8192 + (encodeTable stmtAbbrevs).length < 2 ^ 63 := by decide

/-- Two units whose programs are at these offsets. -/
def stmtObject (off off' : UInt64) : LinkObject where
  id := 0
  getSection name :=
    if name = .info then
      ⟨4096, [stmtUnit off, stmtUnit off'].flatMap InfoUnit.encode, length_stmtUnits off off'⟩
    else if name = .abbrevs then ⟨8192, encodeTable stmtAbbrevs, length_stmtAbbrevs⟩
    else if name = .line then
      ⟨12288, [noLines, noLines].flatMap LineUnit.encode, length_noLines⟩
    else .empty

/-- The unit can be written. -/
theorem stmtUnit_valid (off off' : UInt64) {o : UInt64} (h : o = 0 ∨ o = 18) :
    (stmtUnit o).Valid (stmtObject off off') where
  abbrevs_valid := by
    intro d hd
    obtain rfl := List.mem_singleton.mp hd
    exact ⟨by decide, by decide, by decide, by decide, by decide⟩
  abbrevOffset_le := Nat.zero_le _
  abbrevs_eq := ⟨[], (List.append_nil _).symm⟩
  root_valid := by
    refine ⟨_, rfl, rfl, fun op hop => ?_⟩
    obtain rfl := List.mem_singleton.mp hop
    refine ⟨?_, trivial⟩
    change o.toNat < 256 ^ Format.four.offsetSize
    rcases h with rfl | rfl <;> decide

/-- The program can be written. -/
theorem noLines_fits : noLines.Fits := by
  unfold LineUnit.Fits
  decide

/-- The object has both units and both programs. -/
theorem hasUnits_stmtObject (off off' : UInt64) (h : off = 0 ∨ off = 18)
    (h' : off' = 0 ∨ off' = 18) :
    HasUnits (stmtObject off off') [stmtUnit off, stmtUnit off'] [noLines, noLines] := by
  have hlines : ∀ o : UInt64, o = 0 ∨ o = 18 → ∃ pre l post,
      [noLines, noLines] = pre ++ l :: post ∧
        o.toNat = (pre.flatMap LineUnit.encode).length := by
    rintro o (rfl | rfl)
    · exact ⟨[], noLines, [noLines], rfl, rfl⟩
    · exact ⟨[noLines], noLines, [], rfl, rfl⟩
  refine ⟨rfl, rfl, ?_, ?_, ?_⟩
  · simp only [List.forall_mem_cons]
    exact ⟨stmtUnit_valid off off' h, stmtUnit_valid off off' h', nofun⟩
  · simp only [List.forall_mem_cons]
    exact ⟨noLines_fits, noLines_fits, nofun⟩
  · simp only [List.forall_mem_cons]
    refine ⟨fun o ho => ?_, fun o ho => ?_, nofun⟩
    · obtain rfl : off.toNat = o := Option.some.inj ho
      exact hlines off h
    · obtain rfl : off'.toNat = o := Option.some.inj ho
      exact hlines off' h'

/-- The program of the first unit is behind that of the second, and each gets the other's. -/
theorem readCompileUnits_swaps_programs :
    ¬ ∀ (lo : LinkObject) (us : List InfoUnit) (ls : List LineUnit), HasUnits lo us ls →
      ∃ cus, readCompileUnits lo [] = .ok cus ∧ List.Forall₂ (LoadedRight lo) us cus := by
  intro hall
  have h := hasUnits_stmtObject 18 0 (.inr rfl) (.inl rfl)
  obtain ⟨-, hfirst, -⟩ := (readCompileUnits_inStep_iff h []).mp (hall _ _ _ h)
  exact absurd (hfirst 18 rfl) (by decide)

/-- The same programs in the order of the units. -/
theorem readCompileUnits_attached_in_order :
    ∃ cus, readCompileUnits (stmtObject 0 18) [] = .ok cus ∧
      List.Forall₂ (LoadedRight (stmtObject 0 18)) [stmtUnit 0, stmtUnit 18] cus := by
  have h := hasUnits_stmtObject 0 18 (.inl rfl) (.inr rfl)
  refine (readCompileUnits_attached_iff h).mpr ⟨by decide, fun i hi => ?_⟩
  have hblocks : ∀ off, BlocksInside Format.four (stmtUnit off).root.operands [] :=
    fun off => ⟨nofun, trivial⟩
  match i, hi with
  | 0, _ => exact ⟨⟨rfl, hblocks 0⟩, fun o ho => (Option.some.inj ho).symm⟩
  | 1, _ => exact ⟨⟨rfl, hblocks 18⟩, fun o ho => (Option.some.inj ho).symm⟩

end NovaProva.Dwarf
