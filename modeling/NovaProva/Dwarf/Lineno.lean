import NovaProva.Dwarf.CompileUnit
import NovaProva.Util.Filename

/-!
# Dwarf — Line number programs

`np/spiegel/dwarf/lineno_program.{hxx,cxx}`: the header of a unit of `.debug_line`, and its program,
which a machine with a few registers runs.  From one row that the program appends to the next the
machine reports a range to a delegate, which may stop it; `get_source_line` is such a delegate.

The header's numbers are taken as they are read: a divisor that is zero, and a directory index
behind the directories, are a `Crash` here and undefined there.
-/

namespace NovaProva.Dwarf

/-! ### Opcodes -/

/-- `lineno_standard_opcodes`. -/
inductive StandardOpcode where
  | copy | advancePc | advanceLine | setFile | setColumn | negateStmt | setBasicBlock
  | constAddPc | fixedAdvancePc | setPrologueEnd | setEpilogueBegin | setIsa
  deriving DecidableEq

namespace StandardOpcode

/-- The number of an opcode, `DW_LNS_…`. -/
def code : StandardOpcode → Nat
  | copy             => 0x01
  | advancePc        => 0x02
  | advanceLine      => 0x03
  | setFile          => 0x04
  | setColumn        => 0x05
  | negateStmt       => 0x06
  | setBasicBlock    => 0x07
  | constAddPc       => 0x08
  | fixedAdvancePc   => 0x09
  | setPrologueEnd   => 0x0a
  | setEpilogueBegin => 0x0b
  | setIsa           => 0x0c

/-- Those of versions 2 to 4. -/
def all : List StandardOpcode :=
  [copy, advancePc, advanceLine, setFile, setColumn, negateStmt, setBasicBlock, constAddPc,
    fixedAdvancePc, setPrologueEnd, setEpilogueBegin, setIsa]

/-- The opcode with a number, if there is one. -/
def ofCode (n : Nat) : Option StandardOpcode := all.find? (·.code = n)

@[simp] theorem ofCode_code (o : StandardOpcode) : ofCode o.code = some o := by
  cases o <;> rfl

theorem code_pos (o : StandardOpcode) : 0 < o.code := by
  cases o <;> decide

end StandardOpcode

/-- `lineno_extended_opcodes`. -/
inductive ExtendedOpcode where
  | endSequence | setAddress | defineFile | setDiscriminator
  deriving DecidableEq

namespace ExtendedOpcode

/-- The number of an opcode, `DW_LNE_…`. -/
def code : ExtendedOpcode → Nat
  | endSequence      => 0x01
  | setAddress       => 0x02
  | defineFile       => 0x03
  | setDiscriminator => 0x04

/-- Those that the `switch` has a case for. -/
def all : List ExtendedOpcode := [endSequence, setAddress, defineFile, setDiscriminator]

/-- The opcode with a number, if there is one. -/
def ofCode (n : Nat) : Option ExtendedOpcode := all.find? (·.code = n)

@[simp] theorem ofCode_code (o : ExtendedOpcode) : ofCode o.code = some o := by
  cases o <;> rfl

end ExtendedOpcode

/-! ### The header -/

/-- `file_table_entry_t`. -/
structure FileTableEntry where
  filename : Filename
  directoryIndex : Nat
  mtime : Nat
  length : Nat
  deriving DecidableEq

/-- `lineno_program_t`; a null `compilation_directory_` is `none`. -/
structure LinenoProgram where
  compilationDirectory : Option Filename
  reader : Reader := .null
  headerLength : Nat := 0
  version : Nat := 0
  minimumInstructionLength : UInt8 := 0
  maximumOperationsPerInstruction : UInt8 := 0
  defaultIsStmt : Bool := false
  lineBase : Int8 := 0
  lineRange : UInt8 := 0
  opcodeBase : UInt8 := 0
  includeDirectories : List Filename := []
  files : List FileTableEntry := []

/-- `MIN_LINENO_VERSION`. -/
def minLinenoVersion : Nat := 2
/-- `MAX_LINENO_VERSION`. -/
def maxLinenoVersion : Nat := 4

/-- `get_offset`, which does not move the reader. -/
def Read.tell : Read Nat := fun r => (some r.getOffset, r)

/-- `read_u8` into a byte. -/
def Read.readByte : Read UInt8 := do
  let v ← Read.readU8
  return UInt8.ofNat v

/-- The loop over `standard_opcode_lengths`, which are read and forgotten. -/
def readOpcodeLengths : Nat → Read Unit
  | 0     => return ()
  | n + 1 => do
      let _ ← Read.readU8
      readOpcodeLengths n

/-- The loop over `include_directories`.  A round reads at least one byte. -/
def readDirectories : Nat → Read (List Filename)
  | 0     => Read.fail
  | n + 1 => do
      let v ← Read.readString
      if v = [] then return []
      else
        let vs ← readDirectories n
        return v :: vs

/-- What follows the name of a file. -/
def readFileNumbers (filename : Filename) : Read FileTableEntry := do
  let directoryIndex ← Read.readUleb128
  let mtime ← Read.readUleb128
  let length ← Read.readUleb128
  return { filename := filename, directoryIndex := directoryIndex, mtime := mtime,
           length := length }

/-- The loop over the files.  A round reads at least one byte. -/
def readFiles : Nat → Read (List FileTableEntry)
  | 0     => Read.fail
  | n + 1 => do
      let v ← Read.readString
      if v = [] then return []
      else
        let e ← readFileNumbers v
        let es ← readFiles n
        return e :: es

namespace LinenoProgram

/-- `maximum_operations_per_instruction`, which the header has from version 4 on. -/
def readMaximumOperations (version : Nat) : Read UInt8 :=
  if version ≥ 4 then Read.readByte else pure 1

/-- `read_header`, from `minimum_instruction_length` up to the files. -/
def readTables (p : LinenoProgram) (version : Nat) : Read LinenoProgram := do
  let minimumInstructionLength ← Read.readByte
  let maximumOperationsPerInstruction ← readMaximumOperations version
  let defaultIsStmt ← Read.readByte
  let lineBase ← Read.readByte
  let lineRange ← Read.readByte
  let opcodeBase ← Read.readByte
  readOpcodeLengths (opcodeBase.toNat - 1)
  let includeDirectories ← fun r => readDirectories (r.rest.length + 1) r
  let files ← fun r => readFiles (r.rest.length + 1) r
  return { p with
    version := version
    minimumInstructionLength := minimumInstructionLength
    maximumOperationsPerInstruction := maximumOperationsPerInstruction
    defaultIsStmt := defaultIsStmt ≠ 0
    lineBase := lineBase.toInt8
    lineRange := lineRange
    opcodeBase := opcodeBase
    includeDirectories := p.includeDirectories ++ includeDirectories
    files := p.files ++ files }

/-- `read_header`, from the version on. -/
def readFields (p : LinenoProgram) : Read LinenoProgram := do
  let version ← Read.readU16
  if version < minLinenoVersion ∨ version > maxLinenoVersion then Read.fail
  else
    let length ← Read.readOffset
    let here ← Read.tell
    let p' ← p.readTables version
    let there ← Read.tell
    if (length + here) % 2 ^ 64 ≠ there then Read.fail
    else return { p' with headerLength := (length + here) % 2 ^ 64 }

/-- `read_header`: the program, or `none` for `false`, and the section's reader. -/
def readHeader (p : LinenoProgram) (r : Reader) : Except Fatal (Option LinenoProgram × Reader) :=
  match Read.readInitialLength r with
  | (none, r₁) => .ok (none, r₁)
  | (some (unitLength, is64), r₁) =>
      if unitLength > r₁.getRemains then .error (.badUnitLength unitLength)
      else
        -- the whole unit except the initial length, but not any bytes of the next one
        let reader : Reader := { r₁.initialSubset unitLength with is64 := is64 }
        let r₂ := (Read.skip unitLength r₁).2
        match p.readFields reader with
        | (none, _)          => .ok (none, r₂)
        | (some p', reader') => .ok (some { p' with reader := reader' }, r₂)

end LinenoProgram

/-! ### The machine -/

/-- `registers_t`; a row of the table the program stands for is what they hold. -/
structure Registers where
  address : Nat
  file : Nat
  line : Nat
  column : Nat
  isStmt : Bool
  basicBlock : Bool
  endSequence : Bool
  prologueEnd : Bool
  epilogueBegin : Bool
  isa : Nat
  opIndex : Nat
  discriminator : Nat
  deriving DecidableEq

/-- What `memset` leaves. -/
def Registers.zero : Registers where
  address := 0
  file := 0
  line := 0
  column := 0
  isStmt := false
  basicBlock := false
  endSequence := false
  prologueEnd := false
  epilogueBegin := false
  isa := 0
  opIndex := 0
  discriminator := 0

/-- What a run can end with other than a return. -/
inductive Crash where
  | divisionByZero
  | outOfBounds
  | filename (e : FilenameError)
  deriving DecidableEq

/-- `status_t`. -/
inductive LinenoStatus where
  | success | errBadOpcode | errOpcodeFetch | errOperandFetch | errHaltedByDelegate
  deriving DecidableEq

/-- `run_state_t`, beside its program. -/
structure RunState where
  registers : Registers
  start : Registers := .zero
  haveStart : Bool := false
  additionalFiles : List FileTableEntry := []
  running : Bool := true

/-- `range_t`: what it shows of the run state while a delegate has it. -/
structure LinenoRange where
  program : LinenoProgram
  start : Registers
  registers : Registers
  additionalFiles : List FileTableEntry

/-- `delegate_t`, with the state it keeps: `receive_range`. -/
abbrev Delegate (σ : Type) := LinenoRange → σ → Except Crash (Bool × σ)

/-- Why a round of the loop in `run` is its last: the process ended, or `run` returned. -/
inductive Exit (σ : Type) where
  | crash (c : Crash)
  | returned (status : LinenoStatus) (s : σ)

/-- A read whose failure makes `run` return. -/
def fetch {α σ : Type} (x : Read α) (status : LinenoStatus) (s : σ) (r : Reader) :
    Except (Exit σ) (α × Reader) :=
  match x r with
  | (some v, r') => .ok (v, r')
  | (none, _)    => .error (.returned status s)

/-- What may crash, in a round. -/
def attempt {α σ : Type} : Except Crash α → Except (Exit σ) α
  | .ok v    => .ok v
  | .error c => .error (.crash c)

namespace LinenoProgram

variable {σ : Type} (p : LinenoProgram)

/-- `reset_registers`, with the default of the header for `is_stmt`. -/
def resetRegisters : Registers where
  address := 0
  file := 1
  line := 1
  column := 0
  isStmt := p.defaultIsStmt
  basicBlock := false
  endSequence := false
  prologueEnd := false
  epilogueBegin := false
  isa := 0
  opIndex := 0
  discriminator := 0

/-- What the delegate is told of: from the row held back to the registers. -/
def range (rs : RunState) : LinenoRange where
  program := p
  start := rs.start
  registers := rs.registers
  additionalFiles := rs.additionalFiles

/-- The end of `copy`. -/
def clearFlags (regs : Registers) : Registers :=
  { regs with basicBlock := false, prologueEnd := false, epilogueBegin := false,
              discriminator := 0 }

/-- `copy` once the range before the row is reported. -/
def copyRow (rs : RunState) : RunState :=
  if rs.registers.endSequence then
    { rs with haveStart := false, start := .zero, registers := clearFlags rs.registers }
  else { rs with haveStart := true, start := rs.registers, registers := clearFlags rs.registers }

/-- `copy`: the delegate is told of the range behind the row held back, and may stop the run. -/
def copy (delegate : Delegate σ) (rs : RunState) (s : σ) : Except Crash (RunState × σ) :=
  if rs.haveStart then do
    let (proceed, s') ← delegate (p.range rs) s
    if proceed then return (copyRow rs, s') else return ({ rs with running := false }, s')
  else return (copyRow rs, s)

/-- `advance_pc`; the product is one of 32-bit numbers. -/
def advancePc (operationAdvance : Nat) (regs : Registers) : Except Crash Registers :=
  if p.maximumOperationsPerInstruction = 0 then .error .divisionByZero
  else
    let newOpIndex := (regs.opIndex + operationAdvance) % 2 ^ 32
    .ok { regs with
      address := (regs.address + (newOpIndex / p.maximumOperationsPerInstruction.toNat *
        p.minimumInstructionLength.toNat) % 2 ^ 32) % 2 ^ 64
      opIndex := newOpIndex % p.maximumOperationsPerInstruction.toNat }

/-- `line += advance`, in 32 bits. -/
def advanceLine (lineAdvance : Int) (regs : Registers) : Registers :=
  { regs with line := ((regs.line + lineAdvance) % 2 ^ 32).toNat }

/-- `special_opcode_line_advance`, which divides by `line_range_`. -/
def specialOpcodeLineAdvance (opcode : UInt8) : Except Crash Int :=
  if p.lineRange = 0 then .error .divisionByZero
  else .ok (p.lineBase.toInt + ((opcode - p.opcodeBase) % p.lineRange).toNat)

/-- `special_opcode_operation_advance`, which divides by it too. -/
def specialOpcodeOperationAdvance (opcode : UInt8) : Except Crash Nat :=
  if p.lineRange = 0 then .error .divisionByZero
  else .ok ((opcode - p.opcodeBase) / p.lineRange).toNat

/-- An extended opcode that is known. -/
def runExtendedOpcode (delegate : Delegate σ) (rs : RunState) (s : σ) (r : Reader) :
    ExtendedOpcode → Except (Exit σ) (RunState × σ × Reader)
  | .endSequence => do
      let (rs, s) ← attempt (p.copy delegate
        { rs with registers := { rs.registers with endSequence := true } } s)
      return ({ rs with registers := p.resetRegisters }, s, r)
  | .setAddress => do
      let (v, r) ← fetch Read.readAddr .errOperandFetch s r
      return ({ rs with registers := { rs.registers with address := v, opIndex := 0 } }, s, r)
  | .defineFile => do
      let (e, r) ← fetch (Read.readString >>= readFileNumbers) .errOperandFetch s r
      return ({ rs with additionalFiles := rs.additionalFiles ++ [e] }, s, r)
  | .setDiscriminator => do
      let (d, r) ← fetch Read.readUleb128 .errOpcodeFetch s r
      return ({ rs with registers := { rs.registers with discriminator := d } }, s, r)

/-- An extended opcode, behind its 0.  Its length is read and not looked at. -/
def runExtended (delegate : Delegate σ) (rs : RunState) (s : σ) (r : Reader) :
    Except (Exit σ) (RunState × σ × Reader) := do
  let (_, r) ← fetch Read.readUleb128 .errOpcodeFetch s r
  let (opcode, r) ← fetch Read.readU8 .errOpcodeFetch s r
  match ExtendedOpcode.ofCode opcode with
  | none   => .error (.returned .errBadOpcode s)
  | some o => p.runExtendedOpcode delegate rs s r o

/-- A standard opcode that is known. -/
def runStandardOpcode (delegate : Delegate σ) (rs : RunState) (s : σ) (r : Reader) :
    StandardOpcode → Except (Exit σ) (RunState × σ × Reader)
  | .copy => do
      let (rs, s) ← attempt (p.copy delegate rs s)
      return (rs, s, r)
  | .advancePc => do
      let (u, r) ← fetch Read.readUleb128 .errOperandFetch s r
      let regs ← attempt (p.advancePc u rs.registers)
      return ({ rs with registers := regs }, s, r)
  | .advanceLine => do
      let (l, r) ← fetch Read.readSleb128 .errOperandFetch s r
      return ({ rs with registers := advanceLine l rs.registers }, s, r)
  | .setFile => do
      let (u, r) ← fetch Read.readUleb128 .errOperandFetch s r
      return ({ rs with registers := { rs.registers with file := u } }, s, r)
  | .setColumn => do
      let (u, r) ← fetch Read.readUleb128 .errOperandFetch s r
      return ({ rs with registers := { rs.registers with column := u } }, s, r)
  | .negateStmt =>
      .ok ({ rs with registers := { rs.registers with isStmt := !rs.registers.isStmt } }, s, r)
  | .setBasicBlock =>
      .ok ({ rs with registers := { rs.registers with basicBlock := true } }, s, r)
  | .constAddPc => do
      let advance ← attempt (p.specialOpcodeOperationAdvance 255)
      let regs ← attempt (p.advancePc advance rs.registers)
      return ({ rs with registers := regs }, s, r)
  | .fixedAdvancePc => do
      let (h, r) ← fetch Read.readU16 .errOperandFetch s r
      return ({ rs with registers :=
        { rs.registers with address := (rs.registers.address + h) % 2 ^ 64 } }, s, r)
  | .setPrologueEnd =>
      .ok ({ rs with registers := { rs.registers with prologueEnd := true } }, s, r)
  | .setEpilogueBegin =>
      .ok ({ rs with registers := { rs.registers with epilogueBegin := true } }, s, r)
  | .setIsa => do
      let (u, r) ← fetch Read.readUleb128 .errOperandFetch s r
      return ({ rs with registers := { rs.registers with isa := u } }, s, r)

/-- A standard opcode.  The switch has no default: one that is not known has no operands. -/
def runStandard (delegate : Delegate σ) (opcode : Nat) (rs : RunState) (s : σ) (r : Reader) :
    Except (Exit σ) (RunState × σ × Reader) :=
  match StandardOpcode.ofCode opcode with
  | none   => .ok (rs, s, r)
  | some o => p.runStandardOpcode delegate rs s r o

/-- A special opcode, which contains its own operands. -/
def runSpecial (delegate : Delegate σ) (opcode : UInt8) (rs : RunState) (s : σ) :
    Except Crash (RunState × σ) := do
  let lineAdvance ← p.specialOpcodeLineAdvance opcode
  let operationAdvance ← p.specialOpcodeOperationAdvance opcode
  let regs ← p.advancePc operationAdvance (advanceLine lineAdvance rs.registers)
  p.copy delegate { rs with registers := regs } s

/-- A round of the loop in `run`, behind the opcode. -/
def runOpcode (delegate : Delegate σ) (opcode : Nat) (rs : RunState) (s : σ) (r : Reader) :
    Except (Exit σ) (RunState × σ × Reader) :=
  if opcode = 0 then p.runExtended delegate rs s r
  else if opcode < p.opcodeBase.toNat then p.runStandard delegate opcode rs s r
  else do
    let (rs, s) ← attempt (p.runSpecial delegate (UInt8.ofNat opcode) rs s)
    return (rs, s, r)

/-- The loop in `run`.  A round reads at least one byte, so that the bytes of the program bound
the number of rounds. -/
def runLoop (delegate : Delegate σ) : Nat → RunState → σ → Reader →
    Except (Exit σ) (RunState × σ)
  | 0,     rs, s, _ => .ok (rs, s)
  | n + 1, rs, s, r =>
      if rs.running then
        match Read.readU8 r with
        | (none, _)         => .ok (rs, s)
        | (some opcode, r₁) => do
            let (rs', s', r') ← p.runOpcode delegate opcode rs s r₁
            runLoop delegate n rs' s' r'
      else .ok (rs, s)

/-- What `run` returns for the way its loop ended. -/
def runResult : Except (Exit σ) (RunState × σ) → Except Crash (LinenoStatus × σ)
  | .ok (rs, s) => .ok (if rs.running then .success else .errHaltedByDelegate, s)
  | .error (.returned status s) => .ok (status, s)
  | .error (.crash c) => .error c

/-- `run`, from behind the header. -/
def run (delegate : Delegate σ) (s : σ) : Except Crash (LinenoStatus × σ) :=
  let r := (Read.seek p.headerLength p.reader).2
  runResult (p.runLoop delegate (r.rest.length + 1) { registers := p.resetRegisters } s r)

/-! ### Source lines -/

/-- `get_file_entry`: the files of the header, then those that the program defined. -/
def getFileEntry (additionalFiles : List FileTableEntry) (i : Nat) : Option FileTableEntry :=
  if i = 0 then none
  else if i - 1 < p.files.length then p.files[i - 1]?
  else additionalFiles[i - 1 - p.files.length]?

/-- What `make_absolute_to_dir` returns or throws. -/
def absolute (currentDir f absdir : Filename) : Except Crash Filename :=
  match Filename.makeAbsoluteToDir currentDir f absdir with
  | .ok g    => .ok g
  | .error e => .error (.filename e)

/-- The directory of a file. -/
def directory (e : FileTableEntry) : Except Crash Filename :=
  if e.directoryIndex = 0 then .ok (p.compilationDirectory.getD [])
  else
    match p.includeDirectories[e.directoryIndex - 1]? with
    | some d => .ok d
    | none   => .error .outOfBounds

/-- `get_absolute_filename`; `currentDir` is the directory of the process. -/
def getAbsoluteFilename (currentDir : Filename) (additionalFiles : List FileTableEntry) (i : Nat) :
    Except Crash Filename :=
  match p.getFileEntry additionalFiles i with
  | none   => .ok []
  | some e => do
      let d ← p.directory e
      let f2 ← absolute currentDir e.filename d
      absolute currentDir f2 (p.compilationDirectory.getD [])

end LinenoProgram

/-- `range_t::contains`. -/
def LinenoRange.contains (range : LinenoRange) (a opIndex : Nat) : Bool :=
  if a < range.start.address ∨ (a = range.start.address ∧ opIndex < range.start.opIndex) then false
  else if a ≥ range.registers.address ∨
      (a = range.registers.address ∧ opIndex ≥ range.registers.opIndex) then false
  else true

/-- `range_t::get_absolute_filename`. -/
def LinenoRange.getAbsoluteFilename (currentDir : Filename) (range : LinenoRange) :
    Except Crash Filename :=
  range.program.getAbsoluteFilename currentDir range.additionalFiles range.start.file

/-- What `get_source_line` finds. -/
structure SourceLine where
  filename : Filename
  line : Nat
  column : Nat

/-- `get_source_line_delegate_t`, looking for `addr`. -/
def sourceLineDelegate (currentDir : Filename) (addr : Nat) : Delegate (Option SourceLine) :=
  fun range found =>
    if range.contains addr 0 then do
      let f ← range.getAbsoluteFilename currentDir
      return (false, some
        { filename := f, line := range.start.line, column := range.start.column })
    else return (true, found)

/-- `get_source_line`, which returns true with what it has found. -/
def LinenoProgram.getSourceLine (p : LinenoProgram) (currentDir : Filename) (addr : Nat) :
    Except Crash (Option SourceLine) := do
  let (status, found) ← p.run (sourceLineDelegate currentDir addr) none
  return if status = .errHaltedByDelegate then found else none

end NovaProva.Dwarf
