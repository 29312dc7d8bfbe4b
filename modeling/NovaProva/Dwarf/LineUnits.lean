import NovaProva.Dwarf.Lineno

/-!
# Dwarf — Line units

The units of `.debug_line` as they are written: a header with its directories and files, and the
bytes of a program, in either format.  `read_header` reads each of them back and leaves the
section's reader behind the unit (`readHeader_lineUnit`).
-/

namespace NovaProva.Dwarf

/-! ### Directories and files -/

/-- A file as the header or an instruction defines it. -/
structure FileDecl where
  name : Filename
  directory : Leb
  mtime : Leb
  size : Leb

namespace FileDecl

/-- The bytes of a file in the table. -/
def encode (f : FileDecl) : List UInt8 :=
  f.name ++ [0] ++ (f.directory.bytes ++ (f.mtime.bytes ++ f.size.bytes))

/-- The entry it stands for. -/
def entry (f : FileDecl) : FileTableEntry where
  filename := f.name
  directoryIndex := f.directory.toNat
  mtime := f.mtime.toNat
  length := f.size.toNat

/-- The entry that is read, with numbers of 32 bits. -/
def asRead (f : FileDecl) : FileTableEntry where
  filename := f.name
  directoryIndex := (lebRead f.directory Read.lebStart).vv
  mtime := (lebRead f.mtime Read.lebStart).vv
  length := (lebRead f.size Read.lebStart).vv

end FileDecl

/-- A list ended by an empty string. -/
def encodeDirectories (ds : List Filename) : List UInt8 := ds.flatMap (· ++ [0]) ++ [0]

/-- The table, with its end. -/
def encodeFiles (fs : List FileDecl) : List UInt8 := fs.flatMap FileDecl.encode ++ [0]

section
variable {is64 : Bool} {k : Nat}

/-- A byte is read back. -/
theorem Reads.readByte (b : UInt8) :
    Reads is64 k Read.readByte (Bytes.leBytes 1 b.toNat) b := by
  have hread : Reads is64 k Read.readByte (Bytes.leBytes 1 b.toNat) (UInt8.ofNat b.toNat) :=
    (Reads.readU8 b.toNat_lt).map UInt8.ofNat
  rwa [UInt8.ofNat_toNat] at hread

/-- The numbers of a file are read back. -/
theorem Reads.fileNumbers (f : FileDecl) :
    Reads is64 k (readFileNumbers f.name) (f.directory.bytes ++ (f.mtime.bytes ++ f.size.bytes))
      f.asRead :=
  (Reads.readUleb128_any f.directory).bind
    ((Reads.readUleb128_any f.mtime).bind ((Reads.readUleb128_any f.size).map _))

/-- The lengths of the opcodes are read back. -/
theorem Reads.opcodeLengths (lengths : List UInt8) :
    Reads is64 k (readOpcodeLengths lengths.length) lengths () := by
  induction lengths with
  | nil => exact .pure ()
  | cons b lengths ih =>
      have hbyte : Bytes.leBytes 1 b.toNat = [b] := by simp [Bytes.leBytes]
      have hread : Reads is64 k (readOpcodeLengths (lengths.length + 1))
          (Bytes.leBytes 1 b.toNat ++ lengths) () := (Reads.readU8 b.toNat_lt).bind ih
      rwa [hbyte] at hread

/-- The directories are read back, up to an empty one. -/
theorem Reads.directories {ds : List Filename} (h : ∀ d ∈ ds, d ≠ [] ∧ 0 ∉ d) {n : Nat}
    (hn : ds.length < n) : Reads is64 k (readDirectories n) (encodeDirectories ds) ds := by
  induction ds generalizing n with
  | nil =>
      obtain ⟨n, rfl⟩ := Nat.exists_eq_succ_of_ne_zero hn.ne'
      refine (Reads.readString (s := []) (by simp)).bind_nil ?_
      rw [if_pos rfl]
      exact .pure []
  | cons d ds ih =>
      obtain ⟨n, rfl⟩ := Nat.exists_eq_succ_of_ne_zero (Nat.ne_zero_of_lt hn)
      obtain ⟨hne, hnul⟩ := h d (.head _)
      rw [encodeDirectories, List.flatMap_cons, List.append_assoc]
      refine (Reads.readString hnul).bind ?_
      rw [if_neg hne]
      exact (ih (fun e he => h e (.tail _ he)) (Nat.lt_of_succ_lt_succ hn)).map (d :: ·)

/-- The files are read back, up to an empty name. -/
theorem Reads.files {fs : List FileDecl} (h : ∀ f ∈ fs, f.name ≠ [] ∧ 0 ∉ f.name) {n : Nat}
    (hn : fs.length < n) :
    Reads is64 k (readFiles n) (encodeFiles fs) (fs.map FileDecl.asRead) := by
  induction fs generalizing n with
  | nil =>
      obtain ⟨n, rfl⟩ := Nat.exists_eq_succ_of_ne_zero hn.ne'
      refine (Reads.readString (s := []) (by simp)).bind_nil ?_
      rw [if_pos rfl]
      exact .pure []
  | cons f fs ih =>
      obtain ⟨n, rfl⟩ := Nat.exists_eq_succ_of_ne_zero (Nat.ne_zero_of_lt hn)
      obtain ⟨hne, hnul⟩ := h f (.head _)
      rw [encodeFiles, List.flatMap_cons, List.append_assoc, FileDecl.encode, List.append_assoc]
      refine (Reads.readString hnul).bind ?_
      rw [if_neg hne]
      exact (Reads.fileNumbers f).bind
        ((ih (fun e he => h e (.tail _ he)) (Nat.lt_of_succ_lt_succ hn)).map (f.asRead :: ·))

/-- A loop whose rounds are bounded by the bytes before the reader. -/
theorem Reads.of_rest {α : Type} {x : Nat → Read α} {bs : List UInt8} {v : α}
    (h : ∀ n, bs.length < n → Reads is64 k (x n) bs v) :
    Reads is64 k (fun r => x (r.rest.length + 1) r) bs v := by
  intro r t hi ht hat
  refine h _ ?_ hi ht hat
  rw [hat.rest_eq, List.length_append]
  omega

end

/-! ### Units -/

/-- A unit of `.debug_line`; `maximumOperations` is written from version 4 on. -/
structure LineUnit where
  is64 : Bool
  version : Nat
  minimumInstructionLength : UInt8
  maximumOperations : UInt8
  defaultIsStmt : UInt8
  lineBase : UInt8
  lineRange : UInt8
  opcodeBase : UInt8
  opcodeLengths : List UInt8
  directories : List Filename
  files : List FileDecl
  program : List UInt8
  two_le : minLinenoVersion ≤ version
  le_four : version ≤ maxLinenoVersion
  length_opcodeLengths : opcodeLengths.length = opcodeBase.toNat - 1
  directories_named : ∀ d ∈ directories, d ≠ [] ∧ 0 ∉ d
  files_named : ∀ f ∈ files, f.name ≠ [] ∧ 0 ∉ f.name

/-! Units with neither directories nor files, in the oldest and in the latest version. -/

theorem minLinenoVersion_le_two : minLinenoVersion ≤ 2 := by decide

theorem two_le_maxLinenoVersion : 2 ≤ maxLinenoVersion := by decide

theorem minLinenoVersion_le_four : minLinenoVersion ≤ 4 := by decide

theorem four_le_maxLinenoVersion : 4 ≤ maxLinenoVersion := by decide

theorem length_noOpcodes : ([] : List UInt8).length = (1 : UInt8).toNat - 1 := rfl

theorem noDirectories_named : ∀ d ∈ ([] : List Filename), d ≠ [] ∧ 0 ∉ d :=
  fun _ h => absurd h List.not_mem_nil

theorem noFiles_named : ∀ f ∈ ([] : List FileDecl), f.name ≠ [] ∧ 0 ∉ f.name :=
  fun _ h => absurd h List.not_mem_nil

namespace LineUnit

variable (u : LineUnit)

/-- The header from `minimum_instruction_length` on. -/
def tables : List UInt8 :=
  Bytes.leBytes 1 u.minimumInstructionLength.toNat ++
    ((if u.version ≥ 4 then Bytes.leBytes 1 u.maximumOperations.toNat else []) ++
      (Bytes.leBytes 1 u.defaultIsStmt.toNat ++ (Bytes.leBytes 1 u.lineBase.toNat ++
        (Bytes.leBytes 1 u.lineRange.toNat ++ (Bytes.leBytes 1 u.opcodeBase.toNat ++
          (u.opcodeLengths ++ (encodeDirectories u.directories ++ encodeFiles u.files)))))))

/-- The version and the length of the rest of the header. -/
def start : List UInt8 :=
  Bytes.leBytes 2 u.version ++ Bytes.leBytes (offsetSize u.is64) u.tables.length

/-- The unit behind its length. -/
def contents : List UInt8 := u.start ++ (u.tables ++ u.program)

/-- The length of the unit as it is written. -/
def initialLength : List UInt8 :=
  if u.is64 then Bytes.leBytes 4 0xffffffff ++ Bytes.leBytes 8 u.contents.length
  else Bytes.leBytes 4 u.contents.length

/-- The bytes of the unit. -/
def encode : List UInt8 := u.initialLength ++ u.contents

/-- Lengths from 0xfffffff0 on are reserved in the 32-bit format. -/
def Fits : Prop := u.contents.length < if u.is64 then 2 ^ 64 else 0xfffffff0

/-- What `read_header` makes of the program `p` of the unit, without its reader. -/
def header (p : LinenoProgram) : LinenoProgram :=
  { p with
    headerLength := (u.start ++ u.tables).length
    version := u.version
    minimumInstructionLength := u.minimumInstructionLength
    maximumOperationsPerInstruction := if u.version ≥ 4 then u.maximumOperations else 1
    defaultIsStmt := u.defaultIsStmt ≠ 0
    lineBase := u.lineBase.toInt8
    lineRange := u.lineRange
    opcodeBase := u.opcodeBase
    includeDirectories := p.includeDirectories ++ u.directories
    files := p.files ++ u.files.map FileDecl.asRead }

/-- A reader of the unit that was started where the section's reader is `r`. -/
def reader (r : Reader) : Reader :=
  { (r.setP (r.p + u.initialLength.length)).initialSubset u.contents.length with is64 := u.is64 }

/-- The program `read_header` makes of `p` where the section's reader is `r`. -/
def loaded (p : LinenoProgram) (r : Reader) : LinenoProgram :=
  { u.header p with
    reader := (u.reader r).setP ((u.reader r).p + (u.start ++ u.tables).length) }

/-- There is enough fuel for the directories. -/
theorem length_directories_le :
    u.directories.length ≤ (encodeDirectories u.directories).length := by
  rw [encodeDirectories, List.length_append]
  have hle := Bytes.length_le_length_flatMap (f := fun d : Filename => d ++ [0]) (by simp)
    u.directories
  omega

/-- There is enough fuel for the files. -/
theorem length_files_le : u.files.length ≤ (encodeFiles u.files).length := by
  rw [encodeFiles, List.length_append]
  have hle := Bytes.length_le_length_flatMap (f := FileDecl.encode) (by simp [FileDecl.encode])
    u.files
  omega

/-- **The tables are read back,** -/
theorem reads_tables {is64 : Bool} {k : Nat} (p : LinenoProgram) :
    Reads is64 k (p.readTables u.version) u.tables
      { u.header p with headerLength := p.headerLength } := by
  have hmax : Reads is64 k (LinenoProgram.readMaximumOperations u.version)
      (if u.version ≥ 4 then Bytes.leBytes 1 u.maximumOperations.toNat else [])
      (if u.version ≥ 4 then u.maximumOperations else 1) := by
    unfold LinenoProgram.readMaximumOperations
    split
    · exact Reads.readByte _
    · exact .pure _
  have hlengths : Reads is64 k (readOpcodeLengths (u.opcodeBase.toNat - 1)) u.opcodeLengths () := by
    rw [← u.length_opcodeLengths]
    exact Reads.opcodeLengths _
  have hdirs : Reads is64 k (fun r => readDirectories (r.rest.length + 1) r)
      (encodeDirectories u.directories) u.directories :=
    .of_rest fun n hn => .directories u.directories_named (u.length_directories_le.trans_lt hn)
  have hfiles : Reads is64 k (fun r => readFiles (r.rest.length + 1) r)
      (encodeFiles u.files) (u.files.map FileDecl.asRead) :=
    .of_rest fun n hn => .files u.files_named (u.length_files_le.trans_lt hn)
  exact (Reads.readByte _).bind (hmax.bind ((Reads.readByte _).bind ((Reads.readByte _).bind
    ((Reads.readByte _).bind ((Reads.readByte _).bind (hlengths.bind (hdirs.bind
      (hfiles.map _))))))))

/-- The length of the unit is read back. -/
theorem reads_initialLength {is64 : Bool} {k : Nat} (h : u.Fits) :
    Reads is64 k Read.readInitialLength u.initialLength (u.contents.length, u.is64) := by
  unfold Fits at h
  unfold initialLength
  cases h64 : u.is64 with
  | true =>
      rw [h64, if_pos rfl] at h
      exact Reads.readInitialLength64 (by omega)
  | false =>
      rw [h64, if_neg Bool.false_ne_true] at h
      exact Reads.readInitialLength h

/-- How long the unit is. -/
theorem length_contents :
    u.contents.length = 2 + offsetSize u.is64 + u.tables.length + u.program.length := by
  simp only [contents, start, List.length_append, Bytes.length_leBytes]
  omega

/-- The reader that `read_header` starts has the bytes of the unit before it. -/
theorem at_reader {r : Reader} {post : List UInt8} (h : r.At (u.encode ++ post)) :
    (u.reader r).At u.contents := by
  rw [encode, List.append_assoc] at h
  have hat := (r.setP (r.p + u.initialLength.length)).at_initialSubset u.contents.length
  rw [h.setP.take_rest] at hat
  exact ⟨hat.base_le, hat.end_eq, hat.rest_eq⟩

theorem reader_p (r : Reader) : (u.reader r).p = (u.reader r).base := rfl

/-- The fields of the header, in a reader of the unit. -/
theorem readFields_lineUnit (h : u.Fits) (p : LinenoProgram) {r : Reader} (hr : r.At u.contents)
    (hp : r.p = r.base) (hi : r.is64 = u.is64) :
    p.readFields r = (some (u.header p), r.setP (r.p + (u.start ++ u.tables).length)) := by
  have htwo := u.two_le
  have hfour := u.le_four
  have hsize := u.length_contents
  have hoff : u.tables.length < 256 ^ offsetSize u.is64 := by
    unfold Fits at h
    rw [hsize] at h
    cases hi64 : u.is64 with
    | true =>
        rw [hi64, if_pos rfl] at h
        change _ < 256 ^ 8
        omega
    | false =>
        rw [hi64, if_neg Bool.false_ne_true] at h
        change _ < 256 ^ 4
        omega
  have hend := hr.end_eq
  have hlt := r.end_lt
  rw [contents, start, List.append_assoc] at hr
  -- the version
  have hread₁ :=
    (Reads.readU16 (v := u.version) (by unfold maxLinenoVersion at hfour; omega)).run hr
  have hat₁ := hr.setP
  -- the length of the rest of the header
  have hi₁ : (r.setP (r.p + (Bytes.leBytes 2 u.version).length)).is64 = u.is64 := hi
  have hread₂ := (Reads.readOffset (k := 0) hoff) hi₁ (Nat.zero_le _) hat₁
  have hat₂ := hat₁.setP
  have htell₂ := hat₂.getOffset
  -- the tables
  have hread₃ := (u.reads_tables p).run hat₂
  have htell₃ := hat₂.setP.getOffset
  simp only [Reader.setP_setP, Bytes.length_leBytes] at hread₁ hread₂ hread₃ htell₂ htell₃
  simp only [Reader.setP_base] at htell₂ htell₃
  rw [r.setP_p (by omega)] at htell₂ htell₃
  have hstart : (u.start ++ u.tables).length = 2 + offsetSize u.is64 + u.tables.length := by
    simp only [start, List.length_append, Bytes.length_leBytes]
  have hread₄ : Read.tell (r.setP (r.p + 2 + offsetSize u.is64)) =
      (some (2 + offsetSize u.is64), r.setP (r.p + 2 + offsetSize u.is64)) := by
    rw [Read.tell, htell₂]
    exact Prod.ext (congrArg some (by omega)) rfl
  have hread₅ : Read.tell (r.setP (r.p + 2 + offsetSize u.is64 + u.tables.length)) =
      (some (2 + offsetSize u.is64 + u.tables.length),
        r.setP (r.p + 2 + offsetSize u.is64 + u.tables.length)) := by
    rw [Read.tell, htell₃]
    exact Prod.ext (congrArg some (by omega)) rfl
  have hlength : (u.tables.length + (2 + offsetSize u.is64)) % 2 ^ 64 =
      2 + offsetSize u.is64 + u.tables.length := by omega
  unfold LinenoProgram.readFields
  rw [Read.bind_some hread₁, if_neg (by omega), Read.bind_some hread₂, Read.bind_some hread₄,
    Read.bind_some hread₃, Read.bind_some hread₅, hlength, if_neg (not_not.mpr rfl), hstart]
  refine Prod.ext (congrArg some ?_) ?_
  · rw [header, hstart]
  · change r.setP _ = r.setP _
    rw [Nat.add_assoc r.p, Nat.add_assoc r.p]

/-- **`read_header` reads a line unit** of either format and leaves the section's reader behind
it. -/
theorem readHeader_lineUnit (h : u.Fits) (p : LinenoProgram) {r : Reader} {post : List UInt8}
    (hr : r.At (u.encode ++ post)) :
    p.readHeader r = .ok (some (u.loaded p r), r.setP (r.p + u.encode.length)) := by
  have hat := u.at_reader hr
  rw [encode, List.append_assoc] at hr
  have hread := (u.reads_initialLength h).run hr
  have hremains := hr.setP.getRemains
  rw [List.length_append] at hremains
  have hskip := (Reads.skip u.contents).run hr.setP
  rw [Reader.setP_setP] at hskip
  have hfields := u.readFields_lineUnit h p hat (u.reader_p r) rfl
  unfold LinenoProgram.readHeader
  rw [hread]
  dsimp only
  rw [if_neg (by omega), hskip]
  have hreader : ({ (r.setP (r.p + u.initialLength.length)).initialSubset u.contents.length with
      is64 := u.is64 } : Reader) = u.reader r := rfl
  have hlen : r.p + u.encode.length = r.p + u.initialLength.length + u.contents.length := by
    rw [encode, List.length_append, Nat.add_assoc]
  rw [hreader, hfields, hlen]
  rfl

/-- The bytes that the program's own reader has. -/
theorem bytes_loaded (p : LinenoProgram) {r : Reader} {post : List UInt8}
    (hr : r.At (u.encode ++ post)) :
    (u.loaded p r).reader.bytes = (u.start ++ u.tables) ++ u.program := by
  have hat := u.at_reader hr
  have hrest := hat.rest_eq
  rw [Reader.rest, if_pos hat.base_le, u.reader_p, Nat.sub_self, List.drop_zero, contents,
    ← List.append_assoc] at hrest
  exact hrest

/-- Behind the header there is the program. -/
theorem at_program (p : LinenoProgram) {r : Reader} {post : List UInt8}
    (hr : r.At (u.encode ++ post)) :
    (Read.seek (u.loaded p r).headerLength (u.loaded p r).reader).2.At u.program := by
  have hbytes := u.bytes_loaded p hr
  have hle : (u.loaded p r).headerLength ≤ (u.loaded p r).reader.bytes.length := by
    rw [hbytes, List.length_append]
    exact Nat.le_add_right _ _
  have hat := (u.loaded p r).reader.at_seek hle
  rwa [hbytes, show (u.loaded p r).headerLength = (u.start ++ u.tables).length from rfl,
    List.drop_left] at hat

end LineUnit

/-- At the end of the section there is none. -/
theorem LinenoProgram.readHeader_end (p : LinenoProgram) {r : Reader} (h : r.At [])
    (hend : r.end_ < 2 ^ 63) : p.readHeader r = .ok (none, r) := by
  have hread : Read.readInitialLength r = (none, r) := Read.readInitialLength_end h hend
  unfold LinenoProgram.readHeader
  rw [hread]

end NovaProva.Dwarf
