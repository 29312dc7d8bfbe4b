import NovaProva.Dwarf.Lineno

/-!
# Dwarf — Instructions

The loop of `lineno_program_t::run` in two: what it reads and what it does.  Which instructions a
program has depends on its bytes and on `opcode_base` alone, not on the registers or the delegate
(`LinenoProgram.instructions`), and `run` executes them one after the other until the delegate
stops it (`run_eq_executeAll`).

* `Insn`: an instruction with its operands as they are read.
* `decode`: reads one, behind its opcode.
* `Insn.execute`: what it does to the run state.
-/

namespace NovaProva.Dwarf

/-- An instruction as it is read. -/
inductive Insn where
  | special (opcode : UInt8)
  | copy
  | advancePc (advance : Nat)
  | advanceLine (advance : Int)
  | setFile (file : Nat)
  | setColumn (column : Nat)
  | negateStmt
  | setBasicBlock
  | constAddPc
  | fixedAdvancePc (advance : Nat)
  | setPrologueEnd
  | setEpilogueBegin
  | setIsa (isa : Nat)
  /-- a standard opcode that is not known -/
  | unknown
  | endSequence
  | setAddress (address : Nat)
  | defineFile (file : FileTableEntry)
  | setDiscriminator (discriminator : Nat)

/-! ### Reading -/

/-- An instruction with one operand. -/
def withOperand {α : Type} (x : Read α) (status : LinenoStatus) (insn : α → Insn) (r : Reader) :
    Except LinenoStatus (Insn × Reader) :=
  match x r with
  | (some v, r') => .ok (insn v, r')
  | (none, _)    => .error status

/-- The `switch` over the extended opcodes, as far as it reads. -/
def decodeExtended (r : Reader) : ExtendedOpcode → Except LinenoStatus (Insn × Reader)
  | .endSequence      => .ok (.endSequence, r)
  | .setAddress       => withOperand Read.readAddr .errOperandFetch .setAddress r
  | .defineFile       =>
      withOperand (Read.readString >>= readFileNumbers) .errOperandFetch .defineFile r
  | .setDiscriminator => withOperand Read.readUleb128 .errOpcodeFetch .setDiscriminator r

/-- The `switch` over the standard opcodes, as far as it reads. -/
def decodeStandard (r : Reader) : StandardOpcode → Except LinenoStatus (Insn × Reader)
  | .copy             => .ok (.copy, r)
  | .advancePc        => withOperand Read.readUleb128 .errOperandFetch .advancePc r
  | .advanceLine      => withOperand Read.readSleb128 .errOperandFetch .advanceLine r
  | .setFile          => withOperand Read.readUleb128 .errOperandFetch .setFile r
  | .setColumn        => withOperand Read.readUleb128 .errOperandFetch .setColumn r
  | .negateStmt       => .ok (.negateStmt, r)
  | .setBasicBlock    => .ok (.setBasicBlock, r)
  | .constAddPc       => .ok (.constAddPc, r)
  | .fixedAdvancePc   => withOperand Read.readU16 .errOperandFetch .fixedAdvancePc r
  | .setPrologueEnd   => .ok (.setPrologueEnd, r)
  | .setEpilogueBegin => .ok (.setEpilogueBegin, r)
  | .setIsa           => withOperand Read.readUleb128 .errOperandFetch .setIsa r

/-- What stands behind an opcode, where special opcodes begin at `base`. -/
def decode (base : UInt8) (opcode : Nat) (r : Reader) : Except LinenoStatus (Insn × Reader) :=
  if opcode = 0 then
    match Read.readUleb128 r with
    | (none, _)    => .error .errOpcodeFetch
    | (some _, r₁) =>
        match Read.readU8 r₁ with
        | (none, _)    => .error .errOpcodeFetch
        | (some o, r₂) => ((ExtendedOpcode.ofCode o).map (decodeExtended r₂)).getD
            (.error .errBadOpcode)
  else if opcode < base.toNat then
    ((StandardOpcode.ofCode opcode).map (decodeStandard r)).getD (.ok (.unknown, r))
  else .ok (.special (UInt8.ofNat opcode), r)

/-- The instructions that are read from `r` on, and the status that ends the program where one
cannot be read. -/
def insns (base : UInt8) : Nat → Reader → List Insn × Option LinenoStatus
  | 0,     _ => ([], none)
  | n + 1, r =>
      match Read.readU8 r with
      | (none, _)         => ([], none)
      | (some opcode, r₁) =>
          match decode base opcode r₁ with
          | .error status => ([], some status)
          | .ok (i, r')   => (i :: (insns base n r').1, (insns base n r').2)

/-- An instruction is before the reader, which is at `t` behind it. -/
def Decodes (base : UInt8) (r : Reader) (i : Insn) (t : List UInt8) : Prop :=
  ∃ opcode r₁ r', Read.readU8 r = (some opcode, r₁) ∧
    decode base opcode r₁ = .ok (i, r') ∧ r'.At t

theorem insns_end {base : UInt8} {r : Reader} (n : Nat) (hr : r.At []) :
    insns base n r = ([], none) := by
  cases n with
  | zero => rfl
  | succ n =>
      have hend := hr.end_eq
      have hread : Read.readU8 r = (none, r) := by
        rw [Read.readU8, if_pos (by simp at hend; omega)]
      rw [insns, hread]

theorem insns_of_decodes {base : UInt8} {r : Reader} {i : Insn} {t : List UInt8} (n : Nat)
    (h : Decodes base r i t) : ∃ r', r'.At t ∧
      insns base (n + 1) r = (i :: (insns base n r').1, (insns base n r').2) := by
  obtain ⟨opcode, r₁, r', hread, hdec, hat⟩ := h
  refine ⟨r', hat, ?_⟩
  rw [insns, hread]
  dsimp only
  rw [hdec]

/-- Whatever is written one behind the other, each so that it is read back. -/
theorem insns_of_forall_decodes {α : Type} {base : UInt8} {encode : α → List UInt8}
    {insn : α → Insn} {as : List α}
    (h : ∀ a ∈ as, ∀ r t, r.At (encode a ++ t) → Decodes base r (insn a) t) {n : Nat}
    (hn : as.length ≤ n) {r : Reader} (hr : r.At (as.flatMap encode)) :
    insns base n r = (as.map insn, none) := by
  induction as generalizing n r with
  | nil => exact insns_end n hr
  | cons a as ih =>
      obtain ⟨n, rfl⟩ := Nat.exists_eq_add_one_of_ne_zero (Nat.ne_zero_of_lt hn)
      rw [List.flatMap_cons] at hr
      obtain ⟨r', hat, heq⟩ := insns_of_decodes n (h a (.head _) r _ hr)
      rw [heq, ih (fun b hb => h b (.tail _ hb)) (Nat.le_of_succ_le_succ hn) hat]
      rfl

/-! ### Executing -/

section
variable {σ : Type}

namespace Insn

/-- What an instruction does to the registers, where it advances no address and copies no row. -/
def set : Insn → Registers → Registers
  | advanceLine n, regs => LinenoProgram.advanceLine n regs
  | setFile n, regs => { regs with file := n }
  | setColumn n, regs => { regs with column := n }
  | negateStmt, regs => { regs with isStmt := !regs.isStmt }
  | setBasicBlock, regs => { regs with basicBlock := true }
  | fixedAdvancePc n, regs => { regs with address := (regs.address + n) % 2 ^ 64 }
  | setPrologueEnd, regs => { regs with prologueEnd := true }
  | setEpilogueBegin, regs => { regs with epilogueBegin := true }
  | setIsa n, regs => { regs with isa := n }
  | endSequence, regs => { regs with endSequence := true }
  | setAddress a, regs => { regs with address := a, opIndex := 0 }
  | setDiscriminator n, regs => { regs with discriminator := n }
  | _, regs => regs

/-- The registers behind an instruction, up to the row it copies if it does. -/
def regs (p : LinenoProgram) (rs : Registers) : Insn → Except Crash Registers
  | special opcode => do
      let lineAdvance ← p.specialOpcodeLineAdvance opcode
      let operationAdvance ← p.specialOpcodeOperationAdvance opcode
      p.advancePc operationAdvance (LinenoProgram.advanceLine lineAdvance rs)
  | advancePc n => p.advancePc n rs
  | constAddPc => do
      let advance ← p.specialOpcodeOperationAdvance 255
      p.advancePc advance rs
  | i => .ok (i.set rs)

/-- The file an instruction defines. -/
def files : Insn → List FileTableEntry
  | defineFile e => [e]
  | _ => []

/-- The instructions that copy a row. -/
def copies : Insn → Bool
  | special _ | copy | endSequence => true
  | _ => false

/-- The registers are set back where a sequence ends. -/
def finish (p : LinenoProgram) (i : Insn) (rs : RunState) : RunState :=
  match i with
  | endSequence => { rs with registers := p.resetRegisters }
  | _ => rs

/-- What an instruction does. -/
def execute (p : LinenoProgram) (delegate : Delegate σ) (i : Insn) (rs : RunState) (s : σ) :
    Except Crash (RunState × σ) :=
  match i.regs p rs.registers with
  | .error c  => .error c
  | .ok regs =>
      if i.copies then
        (p.copy delegate { rs with registers := regs } s).map fun q => (i.finish p q.1, q.2)
      else .ok ({ rs with
        registers := regs
        additionalFiles := rs.additionalFiles ++ i.files }, s)

end Insn

/-- The rest of a run over these instructions, with how the program ends. -/
def executeAll (p : LinenoProgram) (delegate : Delegate σ) (ending : Option LinenoStatus) :
    List Insn → RunState → σ → Except (Exit σ) (RunState × σ)
  | [], rs, s =>
      if rs.running then ending.elim (.ok (rs, s)) fun status => .error (.returned status s)
      else .ok (rs, s)
  | i :: is, rs, s =>
      if rs.running then
        (attempt (i.execute p delegate rs s)).bind fun q => executeAll p delegate ending is q.1 q.2
      else .ok (rs, s)

variable {p : LinenoProgram} {delegate : Delegate σ} {rs : RunState} {s : σ} {r : Reader}

/-- The round of an instruction that was read. -/
def round (p : LinenoProgram) (delegate : Delegate σ) (rs : RunState) (s : σ)
    (x : Except LinenoStatus (Insn × Reader)) : Except (Exit σ) (RunState × σ × Reader) :=
  (x.mapError fun status => .returned status s).bind fun y =>
    (attempt (y.1.execute p delegate rs s)).map fun q => (q.1, q.2, y.2)

/-- A fetch is the reading of an operand. -/
theorem fetch_bind_eq_round {α : Type} {x : Read α} {status : LinenoStatus} {insn : α → Insn}
    {next : α × Reader → Except (Exit σ) (RunState × σ × Reader)}
    (h : ∀ v r', next (v, r') = round p delegate rs s (.ok (insn v, r'))) :
    (fetch x status s r).bind next = round p delegate rs s (withOperand x status insn r) := by
  rw [fetch, withOperand]
  rcases x r with ⟨- | v, r'⟩
  · rfl
  · exact h v r'

/-- An instruction that divides by zero. -/
theorem round_of_crash (i : Insn) {c : Crash} (hregs : i.regs p rs.registers = .error c)
    (r : Reader) : round p delegate rs s (.ok (i, r)) = .error (.crash c) := by
  show (attempt (i.execute p delegate rs s)).map _ = _
  rw [Insn.execute, hregs]
  rfl

/-- An instruction that copies no row. -/
theorem round_of_regs (i : Insn) {regs : Registers} (hregs : i.regs p rs.registers = .ok regs)
    (hcopies : i.copies = false) (hfiles : i.files = []) (r : Reader) :
    round p delegate rs s (.ok (i, r)) = .ok ({ rs with registers := regs }, s, r) := by
  show (attempt (i.execute p delegate rs s)).map _ = _
  rw [Insn.execute, hregs, hcopies, hfiles, List.append_nil]
  rfl

/-- An instruction that copies a row. -/
theorem round_of_copies (i : Insn) {regs : Registers} (hregs : i.regs p rs.registers = .ok regs)
    (hcopies : i.copies = true) (r : Reader) :
    round p delegate rs s (.ok (i, r)) =
      (attempt (p.copy delegate { rs with registers := regs } s)).map fun q =>
        (i.finish p q.1, q.2, r) := by
  show (attempt (i.execute p delegate rs s)).map _ = _
  rw [Insn.execute, hregs]
  dsimp only
  rw [if_pos hcopies]
  cases p.copy delegate { rs with registers := regs } s with
  | error c => rfl
  | ok q    => rfl

theorem runStandardOpcode_eq (o : StandardOpcode) :
    p.runStandardOpcode delegate rs s r o = round p delegate rs s (decodeStandard r o) := by
  cases o with
  | copy =>
      rw [decodeStandard, round_of_copies .copy rfl rfl]
      show (attempt (p.copy delegate rs s)).bind _ = (attempt (p.copy delegate rs s)).map _
      cases p.copy delegate rs s with
      | error c => rfl
      | ok q    => rfl
  | advancePc =>
      refine fetch_bind_eq_round fun v r' => ?_
      show (attempt (p.advancePc v rs.registers)).bind _ = _
      cases h : p.advancePc v rs.registers with
      | error c => exact (round_of_crash (.advancePc v) h r').symm
      | ok regs => exact (round_of_regs (.advancePc v) h rfl rfl r').symm
  | constAddPc =>
      have hregs : Insn.constAddPc.regs p rs.registers =
        (p.specialOpcodeOperationAdvance 255).bind fun n => p.advancePc n rs.registers := rfl
      show (attempt (p.specialOpcodeOperationAdvance 255)).bind _ = _
      cases h : p.specialOpcodeOperationAdvance 255 with
      | error c =>
          rw [h] at hregs
          exact (round_of_crash .constAddPc hregs r).symm
      | ok advance =>
          rw [h] at hregs
          show (attempt (p.advancePc advance rs.registers)).bind _ = _
          cases h' : p.advancePc advance rs.registers with
          | error c => exact (round_of_crash .constAddPc (hregs.trans h') r).symm
          | ok regs => exact (round_of_regs .constAddPc (hregs.trans h') rfl rfl r).symm
  | negateStmt => exact (round_of_regs .negateStmt rfl rfl rfl r).symm
  | setBasicBlock => exact (round_of_regs .setBasicBlock rfl rfl rfl r).symm
  | setPrologueEnd => exact (round_of_regs .setPrologueEnd rfl rfl rfl r).symm
  | setEpilogueBegin => exact (round_of_regs .setEpilogueBegin rfl rfl rfl r).symm
  | advanceLine =>
      exact fetch_bind_eq_round fun v r' => (round_of_regs (.advanceLine v) rfl rfl rfl r').symm
  | setFile =>
      exact fetch_bind_eq_round fun v r' => (round_of_regs (.setFile v) rfl rfl rfl r').symm
  | setColumn =>
      exact fetch_bind_eq_round fun v r' => (round_of_regs (.setColumn v) rfl rfl rfl r').symm
  | fixedAdvancePc =>
      exact fetch_bind_eq_round fun v r' => (round_of_regs (.fixedAdvancePc v) rfl rfl rfl r').symm
  | setIsa =>
      exact fetch_bind_eq_round fun v r' => (round_of_regs (.setIsa v) rfl rfl rfl r').symm

theorem runExtendedOpcode_eq (o : ExtendedOpcode) :
    p.runExtendedOpcode delegate rs s r o = round p delegate rs s (decodeExtended r o) := by
  cases o with
  | endSequence =>
      rw [decodeExtended, round_of_copies .endSequence rfl rfl]
      let ended : RunState := { rs with registers := { rs.registers with endSequence := true } }
      show (attempt (p.copy delegate ended s)).bind _ = (attempt (p.copy delegate ended s)).map _
      cases p.copy delegate ended s with
      | error c => rfl
      | ok q    => rfl
  | defineFile =>
      exact fetch_bind_eq_round fun e r' => rfl
  | setAddress =>
      exact fetch_bind_eq_round fun v r' => (round_of_regs (.setAddress v) rfl rfl rfl r').symm
  | setDiscriminator =>
      exact fetch_bind_eq_round fun v r' =>
        (round_of_regs (.setDiscriminator v) rfl rfl rfl r').symm

theorem runSpecial_eq (opcode : UInt8) : p.runSpecial delegate opcode rs s =
    ((Insn.special opcode).regs p rs.registers).bind fun regs =>
      p.copy delegate { rs with registers := regs } s := by
  show (p.specialOpcodeLineAdvance opcode).bind _ =
    ((p.specialOpcodeLineAdvance opcode).bind _).bind _
  cases p.specialOpcodeLineAdvance opcode with
  | error c => rfl
  | ok l =>
      show (p.specialOpcodeOperationAdvance opcode).bind _ =
        ((p.specialOpcodeOperationAdvance opcode).bind _).bind _
      cases p.specialOpcodeOperationAdvance opcode with
      | error c => rfl
      | ok n    => rfl

/-- **A round of the loop** reads an instruction and executes it. -/
theorem runOpcode_eq (opcode : Nat) : p.runOpcode delegate opcode rs s r =
    round p delegate rs s (decode p.opcodeBase opcode r) := by
  rw [LinenoProgram.runOpcode, decode]
  split
  · rw [LinenoProgram.runExtended]
    show (fetch Read.readUleb128 .errOpcodeFetch s r).bind _ = _
    rw [fetch]
    rcases Read.readUleb128 r with ⟨- | n, r₁⟩
    · rfl
    · show (fetch Read.readU8 .errOpcodeFetch s r₁).bind _ = _
      rw [fetch]
      dsimp only
      rcases Read.readU8 r₁ with ⟨- | o, r₂⟩
      · rfl
      · dsimp only [Except.bind]
        cases ExtendedOpcode.ofCode o with
        | none => rfl
        | some o => exact runExtendedOpcode_eq o
  · split
    · rw [LinenoProgram.runStandard]
      cases StandardOpcode.ofCode opcode with
      | none => exact (round_of_regs .unknown rfl rfl rfl r).symm
      | some o => exact runStandardOpcode_eq o
    · rw [runSpecial_eq]
      cases h : (Insn.special (UInt8.ofNat opcode)).regs p rs.registers with
      | error c => exact (round_of_crash _ h r).symm
      | ok regs =>
          rw [round_of_copies _ h rfl]
          show (attempt (p.copy delegate { rs with registers := regs } s)).bind _ = _
          cases p.copy delegate { rs with registers := regs } s with
          | error c => rfl
          | ok q    => rfl

/-- The loop executes what it reads. -/
theorem runLoop_eq (n : Nat) (rs : RunState) (s : σ) (r : Reader) :
    p.runLoop delegate n rs s r =
      executeAll p delegate (insns p.opcodeBase n r).2 (insns p.opcodeBase n r).1 rs s := by
  induction n generalizing rs s r with
  | zero => exact (ite_self _).symm
  | succ n ih =>
      rw [LinenoProgram.runLoop, insns]
      rcases Read.readU8 r with ⟨- | opcode, r₁⟩
      · rfl
      · dsimp only
        rw [runOpcode_eq]
        rcases hd : decode p.opcodeBase opcode r₁ with status | ⟨i, r'⟩
        · rfl
        · show (if rs.running then (round p delegate rs s (.ok (i, r'))).bind _ else _) =
            if rs.running then _ else _
          congr 1
          show ((attempt (i.execute p delegate rs s)).map _).bind _ = _
          cases attempt (i.execute p delegate rs s) with
          | error e => rfl
          | ok q    => exact ih q.1 q.2 r'

/-- The instructions of a program, and the status that ends it where one cannot be read. -/
def LinenoProgram.instructions (p : LinenoProgram) : List Insn × Option LinenoStatus :=
  insns p.opcodeBase ((Read.seek p.headerLength p.reader).2.rest.length + 1)
    (Read.seek p.headerLength p.reader).2

/-- **A run** executes the instructions of the program. -/
theorem run_eq_executeAll (delegate : Delegate σ) (s : σ) :
    p.run delegate s = LinenoProgram.runResult
      (executeAll p delegate p.instructions.2 p.instructions.1
        { registers := p.resetRegisters } s) := by
  rw [LinenoProgram.run, runLoop_eq]
  rfl

theorem executeAll_not_running {ending : Option LinenoStatus} (h : rs.running = false)
    (is : List Insn) (s : σ) : executeAll p delegate ending is rs s = .ok (rs, s) := by
  cases is with
  | nil => rw [executeAll, if_neg (by simp [h])]
  | cons i is => rw [executeAll, if_neg (by simp [h])]

end

end NovaProva.Dwarf
