import NovaProva.Dwarf.Rows

/-!
# Dwarf — Hazards

`read_header` takes `line_range`, `maximum_operations_per_instruction` and the directory indexes as
they are.  The two numbers are divisors, the indexes are used unchecked, and whether
`get_source_line` comes across one of them depends on the program (`getSourceLine_safe_iff`).

Addresses have 64 bits, so the last one is in no range.  A run that looks for it is never stopped,
and comes to every instruction.
-/

namespace NovaProva.Dwarf

/-! ### Addresses -/

/-- Addresses are read with 64 bits. -/
def Insn.Bounded : Insn → Prop
  | setAddress a => a < 2 ^ 64
  | _ => True

theorem Read.readAddr_lt {r r' : Reader} {v : Nat} (h : Read.readAddr r = (some v, r')) :
    v < 2 ^ 64 := by
  rw [Read.readAddr, Read.readU64, Read.readLe] at h
  split at h
  · cases h
  · cases h
    have hpow : 256 ^ (r.rest.take 8).length ≤ 256 ^ 8 :=
      Nat.pow_le_pow_right (by decide) (List.length_take_le 8 _)
    exact (Bytes.leNat_lt _).trans_le hpow

theorem withOperand_bounded {α : Type} {x : Read α} {status : LinenoStatus} {insn : α → Insn}
    {r r' : Reader} {i : Insn} (h : withOperand x status insn r = .ok (i, r'))
    (hinsn : ∀ v r', x r = (some v, r') → (insn v).Bounded) : i.Bounded := by
  rw [withOperand] at h
  rcases hx : x r with ⟨- | v, r₁⟩
  · rw [hx] at h
    cases h
  · rw [hx] at h
    cases h
    exact hinsn v _ hx

theorem decodeExtended_bounded {r r' : Reader} {o : ExtendedOpcode} {i : Insn}
    (h : decodeExtended r o = .ok (i, r')) : i.Bounded := by
  cases o with
  | endSequence =>
      cases h
      trivial
  | setAddress => exact withOperand_bounded h fun v _ hv => Read.readAddr_lt hv
  | defineFile | setDiscriminator => exact withOperand_bounded h fun _ _ _ => trivial

theorem decodeStandard_bounded {r r' : Reader} {o : StandardOpcode} {i : Insn}
    (h : decodeStandard r o = .ok (i, r')) : i.Bounded := by
  cases o with
  | advancePc | advanceLine | setFile | setColumn | fixedAdvancePc | setIsa =>
      exact withOperand_bounded h fun _ _ _ => trivial
  | _ =>
      cases h
      trivial

theorem decode_bounded {base : UInt8} {opcode : Nat} {r r' : Reader} {i : Insn}
    (h : decode base opcode r = .ok (i, r')) : i.Bounded := by
  rw [decode] at h
  split at h
  · rcases hn : Read.readUleb128 r with ⟨- | n, r₁⟩ <;> rw [hn] at h <;> dsimp only at h
    · cases h
    · rcases hcode : Read.readU8 r₁ with ⟨- | o, r₂⟩ <;> rw [hcode] at h <;> dsimp only at h
      · cases h
      · cases ho : ExtendedOpcode.ofCode o with
        | none =>
            rw [ho] at h
            cases h
        | some o =>
            rw [ho] at h
            exact decodeExtended_bounded h
  · split at h
    · cases ho : StandardOpcode.ofCode opcode with
      | none =>
          rw [ho] at h
          cases h
          trivial
      | some o =>
          rw [ho] at h
          exact decodeStandard_bounded h
    · cases h
      trivial

theorem insns_bounded (base : UInt8) (n : Nat) (r : Reader) :
    ∀ i ∈ (insns base n r).1, i.Bounded := by
  induction n generalizing r with
  | zero => exact fun i hi => absurd hi List.not_mem_nil
  | succ n ih =>
      rw [insns]
      rcases Read.readU8 r with ⟨- | opcode, r₁⟩
      · exact fun i hi => absurd hi List.not_mem_nil
      · dsimp only
        rcases hd : decode base opcode r₁ with status | ⟨i, r'⟩
        · exact fun i hi => absurd hi List.not_mem_nil
        · intro j hj
          rcases List.mem_cons.mp hj with rfl | hj
          · exact decode_bounded hd
          · exact ih r' j hj

theorem address_apply_lt {p : LinenoProgram} {i : Insn} (hi : i.Bounded) {regs : Registers}
    (h : regs.address < 2 ^ 64) : (i.apply p regs).address < 2 ^ 64 := by
  by_cases hdiv : i.DividesByZero p
  · rw [Insn.apply, Insn.regs_of_dividesByZero hdiv]
    exact h
  · have hadvance : ∀ {n : Nat} {regs regs' : Registers}, p.advancePc n regs = .ok regs' →
        regs'.address < 2 ^ 64 := by
      intro n regs regs' hpc
      rw [LinenoProgram.advancePc] at hpc
      split at hpc
      · cases hpc
      · cases hpc
        exact Nat.mod_lt _ (Nat.two_pow_pos 64)
    have hregs := Insn.regs_of_not_dividesByZero hdiv regs
    cases i with
    | special opcode =>
        obtain ⟨hrange, hmax⟩ := not_or.mp hdiv
        rw [Insn.regs, LinenoProgram.specialOpcodeLineAdvance,
          LinenoProgram.specialOpcodeOperationAdvance, if_neg hrange, if_neg hrange] at hregs
        exact hadvance hregs
    | constAddPc =>
        obtain ⟨hrange, hmax⟩ := not_or.mp hdiv
        rw [Insn.regs, LinenoProgram.specialOpcodeOperationAdvance, if_neg hrange] at hregs
        exact hadvance hregs
    | advancePc n => exact hadvance hregs
    | fixedAdvancePc n => exact Nat.mod_lt _ (Nat.two_pow_pos 64)
    | setAddress a => exact hi
    | _ => exact h

theorem address_next_lt {p : LinenoProgram} {i : Insn} (hi : i.Bounded) {regs : Registers}
    (h : regs.address < 2 ^ 64) : (i.next p regs).address < 2 ^ 64 := by
  have happly := address_apply_lt (p := p) hi h
  cases i with
  | endSequence => exact Nat.two_pow_pos 64
  | _ => exact happly

/-! ### Divisors -/

/-- The last address is in no range. -/
theorem not_contains_last {range : LinenoRange} (h : range.registers.address < 2 ^ 64) :
    range.contains (2 ^ 64 - 1) 0 = false := by
  rw [LinenoRange.contains]
  split
  · rfl
  · rw [if_pos (.inl (by omega))]

theorem Insn.running_copied {p : LinenoProgram} (i : Insn) (rs : RunState) :
    (i.copied p rs).running = rs.running := by
  rw [Insn.copied, LinenoProgram.copyRow]
  split <;> rfl

/-- An instruction behind which a run that looks for the last address goes on. -/
theorem execute_last {p : LinenoProgram} {i : Insn} (h : ¬ i.DividesByZero p) (hi : i.Bounded)
    (currentDir : Filename) {rs : RunState} (haddr : rs.registers.address < 2 ^ 64) :
    ∃ rs', i.execute p (sourceLineDelegate currentDir (2 ^ 64 - 1)) rs none = .ok (rs', none) ∧
      rs'.running = rs.running ∧ rs'.registers = i.next p rs.registers := by
  cases hcopies : i.copies with
  | false => exact ⟨_, execute_of_not_copies h hcopies rs none, rfl, rfl⟩
  | true =>
      cases hstart : rs.haveStart with
      | false => exact ⟨_, execute_first h hcopies hstart none, i.running_copied rs, rfl⟩
      | true =>
          refine ⟨_, ?_, i.running_copied rs, rfl⟩
          rw [execute_behind h hcopies hstart, sourceLineDelegate,
            not_contains_last (address_apply_lt hi haddr)]
          rfl

/-- A run that looks for the last address comes to every instruction. -/
theorem executeAll_divides {p : LinenoProgram} {ending : Option LinenoStatus} {is : List Insn}
    (hbounded : ∀ i ∈ is, i.Bounded) (hdiv : ∃ i ∈ is, i.DividesByZero p) (currentDir : Filename)
    {rs : RunState} (hrun : rs.running = true) (haddr : rs.registers.address < 2 ^ 64) :
    executeAll p (sourceLineDelegate currentDir (2 ^ 64 - 1)) ending is rs none =
      .error (.crash .divisionByZero) := by
  induction is generalizing rs with
  | nil =>
      obtain ⟨i, hi, -⟩ := hdiv
      exact absurd hi List.not_mem_nil
  | cons i is ih =>
      rw [executeAll, if_pos hrun]
      by_cases hi : i.DividesByZero p
      · rw [execute_dividesByZero hi]
        rfl
      · have hb := hbounded i (.head _)
        obtain ⟨rs', hexec, hrun', hregs'⟩ := execute_last hi hb currentDir haddr
        obtain ⟨j, hj, hjdiv⟩ := hdiv
        rw [hexec]
        refine ih (fun k hk => hbounded k (.tail _ hk)) ⟨j, ?_, hjdiv⟩ (hrun'.trans hrun) ?_
        · rcases List.mem_cons.mp hj with rfl | hj
          · exact absurd hjdiv hi
          · exact hj
        · rw [hregs']
          exact address_next_lt hb haddr

theorem getSourceLine_divides {p : LinenoProgram}
    (hdiv : ∃ i ∈ p.instructions.1, i.DividesByZero p) (currentDir : Filename) :
    p.getSourceLine currentDir (2 ^ 64 - 1) = .error .divisionByZero := by
  have hbounded : ∀ i ∈ p.instructions.1, i.Bounded := insns_bounded _ _ _
  rw [LinenoProgram.getSourceLine, run_eq_executeAll,
    executeAll_divides hbounded hdiv currentDir rfl (Nat.two_pow_pos 64)]
  rfl

/-! ### Directories -/

/-- Neither a division by zero nor an index out of bounds. -/
def NoHazard {α : Type} (x : Except Crash α) : Prop :=
  x ≠ .error .divisionByZero ∧ x ≠ .error .outOfBounds

theorem noHazard_ok {α : Type} (v : α) : NoHazard (.ok v) := ⟨by simp, by simp⟩

theorem noHazard_bind {α β : Type} {x : Except Crash α} {f : α → Except Crash β}
    (hx : NoHazard x) (hf : ∀ v, NoHazard (f v)) : NoHazard (x.bind f) := by
  cases x with
  | error c =>
      refine ⟨fun h => hx.1 ?_, fun h => hx.2 ?_⟩
      · cases h
        rfl
      · cases h
        rfl
  | ok v => exact hf v

theorem noHazard_map_iff {α β : Type} {x : Except Crash α} {f : α → β} :
    NoHazard (x.map f) ↔ NoHazard x := by
  cases x with
  | error c => simp [NoHazard, Except.map]
  | ok v    => exact iff_of_true (noHazard_ok _) (noHazard_ok v)

theorem noHazard_absolute (currentDir f absdir : Filename) :
    NoHazard (LinenoProgram.absolute currentDir f absdir) := by
  rw [LinenoProgram.absolute]
  split
  · exact noHazard_ok _
  · exact ⟨by simp, by simp⟩

theorem noHazard_directory_iff {p : LinenoProgram} (e : FileTableEntry) :
    NoHazard (p.directory e) ↔ ∃ d, p.directory e = .ok d := by
  rw [LinenoProgram.directory]
  split
  · exact iff_of_true (noHazard_ok _) ⟨_, rfl⟩
  · split
    · exact iff_of_true (noHazard_ok _) ⟨_, rfl⟩
    · simp [NoHazard]

/-- Naming a file is out of bounds exactly if its directory index is. -/
theorem noHazard_getAbsoluteFilename_iff (p : LinenoProgram) (currentDir : Filename)
    (files : List FileTableEntry) (i : Nat) :
    NoHazard (p.getAbsoluteFilename currentDir files i) ↔
      ∀ e ∈ p.getFileEntry files i, e.directoryIndex ≤ p.includeDirectories.length := by
  rw [LinenoProgram.getAbsoluteFilename]
  cases p.getFileEntry files i with
  | none => exact iff_of_true (noHazard_ok _) fun e he => absurd he (Option.not_mem_none e)
  | some e =>
      have hdir := noHazard_directory_iff (p := p) e
      simp only [Option.mem_def, Option.some.injEq, forall_eq', ← directory_ok_iff, ← hdir]
      cases hd : p.directory e with
      | error c => exact Iff.rfl
      | ok d =>
          refine iff_of_true ?_ (noHazard_ok d)
          show NoHazard ((LinenoProgram.absolute currentDir e.filename d).bind _)
          exact noHazard_bind (noHazard_absolute ..) fun f2 => noHazard_absolute ..

/-! ### Source lines -/

/-- **No hazards.**  For every program, whatever bytes `read_header` made it of: `get_source_line`
never divides by zero and never indexes the directories out of bounds, whatever address it is given,
exactly if no instruction divides by zero, and the file of each range that is the first to contain
some address has a directory. -/
theorem getSourceLine_safe_iff (p : LinenoProgram) (currentDir : Filename) :
    (∀ addr < 2 ^ 64, NoHazard (p.getSourceLine currentDir addr)) ↔
      (∀ i ∈ p.instructions.1, ¬ i.DividesByZero p) ∧
      ∀ addr < 2 ^ 64, ∀ range ∈ p.ranges.find? (·.contains addr 0),
        ∀ e ∈ p.getFileEntry range.additionalFiles range.start.file,
          e.directoryIndex ≤ p.includeDirectories.length := by
  have hlines : (∀ i ∈ p.instructions.1, ¬ i.DividesByZero p) → ∀ addr,
      (NoHazard (p.getSourceLine currentDir addr) ↔
        ∀ range ∈ p.ranges.find? (·.contains addr 0),
          ∀ e ∈ p.getFileEntry range.additionalFiles range.start.file,
            e.directoryIndex ≤ p.includeDirectories.length) := by
    intro hsafe addr
    rw [getSourceLine_reported hsafe]
    cases hfind : p.ranges.find? (·.contains addr 0) with
    | none =>
        exact iff_of_true (noHazard_ok _) fun range h => absurd h (Option.not_mem_none range)
    | some range =>
        obtain ⟨q, -, rfl⟩ := List.mem_map.mp (List.mem_of_find?_eq_some hfind)
        simp only [Option.mem_def, Option.some.injEq, forall_eq']
        exact noHazard_map_iff.trans (noHazard_getAbsoluteFilename_iff p currentDir _ _)
  constructor
  · intro h
    have hsafe : ∀ i ∈ p.instructions.1, ¬ i.DividesByZero p := by
      intro i hi hdiv
      exact (h (2 ^ 64 - 1) (by decide)).1 (getSourceLine_divides ⟨i, hi, hdiv⟩ currentDir)
    exact ⟨hsafe, fun addr haddr => (hlines hsafe addr).mp (h addr haddr)⟩
  · rintro ⟨hsafe, hall⟩ addr haddr
    exact (hlines hsafe addr).mpr (hall addr haddr)

/-- A unit whose line range is zero, with a special opcode. -/
def zeroRangeUnit : LineUnit where
  is64 := false
  version := 2
  minimumInstructionLength := 1
  maximumOperations := 1
  defaultIsStmt := 1
  lineBase := 0xfb
  lineRange := 0
  opcodeBase := 1
  opcodeLengths := []
  directories := []
  files := []
  program := encodeOps [.special 255]
  two_le := minLinenoVersion_le_two
  le_four := two_le_maxLinenoVersion
  length_opcodeLengths := length_noOpcodes
  directories_named := noDirectories_named
  files_named := noFiles_named

/-- The special opcode divides by the line range. -/
theorem zero_line_range_divides :
    ¬ ∀ (p₀ p : LinenoProgram) (r rest : Reader), p₀.readHeader r = .ok (some p, rest) →
      ∀ currentDir, ∀ addr < 2 ^ 64, NoHazard (p.getSourceLine currentDir addr) := by
  intro hall
  have hat := (Reader.at_ofBuffer 0 zeroRangeUnit.encode (by decide)).append_nil
  have hread := zeroRangeUnit.readHeader_lineUnit (by decide : _ < 0xfffffff0)
    { compilationDirectory := none } hat
  refine (hall _ _ _ _ hread [] (2 ^ 64 - 1) (by decide)).1 (getSourceLine_divides ?_ [])
  have hops : ∀ op ∈ [LineOp.special 255], op.Readable 1 := by
    intro op hop
    rw [List.mem_singleton.mp hop]
    exact ⟨by decide, by decide⟩
  have hinsns := zeroRangeUnit.instructions_loaded rfl LineOp.length_encode_pos
    (fun op hop _ _ => decodes_op (hops op hop)) { compilationDirectory := none } hat
  refine ⟨.special 255, ?_, .inl rfl⟩
  rw [hinsns]
  exact .head _

end NovaProva.Dwarf
