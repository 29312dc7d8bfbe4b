import NovaProva.Dwarf.LineUnits
import NovaProva.Dwarf.Reported
import NovaProva.Util.Resolve
import Mathlib.Data.UInt

/-!
# Dwarf — Rows

The table of rows that a line number program stands for, as the standard defines it, and what
`lineno_program_t::run` makes of the bytes of the program.

* `LineOp`: an instruction with its operands as they are written; `LineOp.encode`: its bytes.
* `rows`: the rows the instructions append; `pairs`: the consecutive rows of the same sequence.
* `run_eq_feed`: `run` reports these pairs in order, until the delegate stops it.
* `run_reports_rows_iff`: when `get_source_line` finds the source line of every address.
-/

namespace NovaProva.Dwarf

/-! ### Instructions -/

/-- An instruction; an extended one has its length in front. -/
inductive LineOp where
  | special (opcode : UInt8)
  | copy
  | advancePc (advance : Leb)
  | advanceLine (advance : Leb)
  | setFile (file : Leb)
  | setColumn (column : Leb)
  | negateStmt
  | setBasicBlock
  | constAddPc
  | fixedAdvancePc (advance : Nat)
  | setPrologueEnd
  | setEpilogueBegin
  | setIsa (isa : Leb)
  | endSequence (length : Leb)
  | setAddress (length : Leb) (address : Nat)
  | defineFile (length : Leb) (file : FileDecl)
  | setDiscriminator (length discriminator : Leb)

namespace LineOp

/-- A standard opcode and its operands. -/
def standard (o : StandardOpcode) (operands : List UInt8) : List UInt8 :=
  Bytes.leBytes 1 o.code ++ operands

/-- An extended opcode, behind a zero and its length, and its operands. -/
def extended (length : Leb) (o : ExtendedOpcode) (operands : List UInt8) : List UInt8 :=
  Bytes.leBytes 1 0 ++ (length.bytes ++ (Bytes.leBytes 1 o.code ++ operands))

/-- The bytes of an instruction. -/
def encode : LineOp → List UInt8
  | special opcode       => Bytes.leBytes 1 opcode.toNat
  | copy                 => standard .copy []
  | advancePc l          => standard .advancePc l.bytes
  | advanceLine l        => standard .advanceLine l.bytes
  | setFile l            => standard .setFile l.bytes
  | setColumn l          => standard .setColumn l.bytes
  | negateStmt           => standard .negateStmt []
  | setBasicBlock        => standard .setBasicBlock []
  | constAddPc           => standard .constAddPc []
  | fixedAdvancePc n     => standard .fixedAdvancePc (Bytes.leBytes 2 n)
  | setPrologueEnd       => standard .setPrologueEnd []
  | setEpilogueBegin     => standard .setEpilogueBegin []
  | setIsa l             => standard .setIsa l.bytes
  | endSequence len      => extended len .endSequence []
  | setAddress len a     => extended len .setAddress (Bytes.leBytes 8 a)
  | defineFile len f     => extended len .defineFile f.encode
  | setDiscriminator len l => extended len .setDiscriminator l.bytes

/-- An extended instruction's length is that of the opcode and the operands. -/
def HasLength (length : Leb) (operands : List UInt8) : Prop :=
  length.length ≤ 4 ∧ length.toNat = operands.length + 1

/-- What the program `p` may hold: special opcodes from `opcode_base` on, standard ones below it,
and LEB128 operands of at most four bytes. -/
def Valid (p : LinenoProgram) : LineOp → Prop
  | special opcode       => opcode ≠ 0 ∧ p.opcodeBase ≤ opcode
  | copy                 => StandardOpcode.copy.code < p.opcodeBase.toNat
  | advancePc l          => StandardOpcode.advancePc.code < p.opcodeBase.toNat ∧ l.length ≤ 4 ∧
      p.minimumInstructionLength.toNat * l.toNat < 2 ^ 32
  | advanceLine l        => StandardOpcode.advanceLine.code < p.opcodeBase.toNat ∧ l.length ≤ 4
  | setFile l            => StandardOpcode.setFile.code < p.opcodeBase.toNat ∧ l.length ≤ 4
  | setColumn l          => StandardOpcode.setColumn.code < p.opcodeBase.toNat ∧ l.length ≤ 4
  | negateStmt           => StandardOpcode.negateStmt.code < p.opcodeBase.toNat
  | setBasicBlock        => StandardOpcode.setBasicBlock.code < p.opcodeBase.toNat
  | constAddPc           => StandardOpcode.constAddPc.code < p.opcodeBase.toNat
  | fixedAdvancePc n     => StandardOpcode.fixedAdvancePc.code < p.opcodeBase.toNat ∧ n < 2 ^ 16
  | setPrologueEnd       => StandardOpcode.setPrologueEnd.code < p.opcodeBase.toNat
  | setEpilogueBegin     => StandardOpcode.setEpilogueBegin.code < p.opcodeBase.toNat
  | setIsa l             => StandardOpcode.setIsa.code < p.opcodeBase.toNat ∧ l.length ≤ 4
  | endSequence len      => HasLength len []
  | setAddress len a     => HasLength len (Bytes.leBytes 8 a) ∧ a < 2 ^ 64
  | defineFile len f     => HasLength len f.encode ∧ 0 ∉ f.name ∧ f.directory.length ≤ 4 ∧
      f.mtime.length ≤ 4 ∧ f.size.length ≤ 4
  | setDiscriminator len l => HasLength len l.bytes ∧ l.length ≤ 4

end LineOp

/-- The bytes of a program. -/
def encodeOps (ops : List LineOp) : List UInt8 := ops.flatMap LineOp.encode

/-! ### Reading -/

namespace LineOp

/-- What a program whose special opcodes begin at `base` may hold. -/
def Readable (base : UInt8) : LineOp → Prop
  | special opcode       => opcode ≠ 0 ∧ base ≤ opcode
  | copy                 => StandardOpcode.copy.code < base.toNat
  | advancePc _          => StandardOpcode.advancePc.code < base.toNat
  | advanceLine _        => StandardOpcode.advanceLine.code < base.toNat
  | setFile _            => StandardOpcode.setFile.code < base.toNat
  | setColumn _          => StandardOpcode.setColumn.code < base.toNat
  | negateStmt           => StandardOpcode.negateStmt.code < base.toNat
  | setBasicBlock        => StandardOpcode.setBasicBlock.code < base.toNat
  | constAddPc           => StandardOpcode.constAddPc.code < base.toNat
  | fixedAdvancePc n     => StandardOpcode.fixedAdvancePc.code < base.toNat ∧ n < 2 ^ 16
  | setPrologueEnd       => StandardOpcode.setPrologueEnd.code < base.toNat
  | setEpilogueBegin     => StandardOpcode.setEpilogueBegin.code < base.toNat
  | setIsa _             => StandardOpcode.setIsa.code < base.toNat
  | endSequence _        => True
  | setAddress _ a       => a < 2 ^ 64
  | defineFile _ f       => 0 ∉ f.name
  | setDiscriminator _ _ => True

/-- The instruction as it is read, with LEB128 numbers of 32 bits. -/
def asRead : LineOp → Insn
  | special opcode       => .special opcode
  | copy                 => .copy
  | advancePc l          => .advancePc (lebRead l Read.lebStart).vv
  | advanceLine l        => .advanceLine (Read.signExtend (lebRead l Read.lebStart))
  | setFile l            => .setFile (lebRead l Read.lebStart).vv
  | setColumn l          => .setColumn (lebRead l Read.lebStart).vv
  | negateStmt           => .negateStmt
  | setBasicBlock        => .setBasicBlock
  | constAddPc           => .constAddPc
  | fixedAdvancePc n     => .fixedAdvancePc n
  | setPrologueEnd       => .setPrologueEnd
  | setEpilogueBegin     => .setEpilogueBegin
  | setIsa l             => .setIsa (lebRead l Read.lebStart).vv
  | endSequence _        => .endSequence
  | setAddress _ a       => .setAddress a
  | defineFile _ f       => .defineFile f.asRead
  | setDiscriminator _ l => .setDiscriminator (lebRead l Read.lebStart).vv

end LineOp

section
variable {base : UInt8} {r : Reader} {t : List UInt8}

/-- An operand is read, and the instruction made of it. -/
theorem withOperand_eq {α : Type} {x : Read α} {bs : List UInt8} {v : α} {insn : α → Insn}
    {status : LinenoStatus} (h : Reads r.is64 0 x bs v) (hr : r.At (bs ++ t)) :
    withOperand x status insn r = .ok (insn v, r.setP (r.p + bs.length)) := by
  rw [withOperand, h.run hr]

/-- A standard opcode is read, and its operands are before the reader. -/
theorem decode_standard {o : StandardOpcode} {operands : List UInt8} (ho : o.code < base.toNat)
    (hr : r.At (LineOp.standard o operands ++ t)) :
    ∃ r₁, Read.readU8 r = (some o.code, r₁) ∧ r₁.At (operands ++ t) ∧
      decode base o.code r₁ = decodeStandard r₁ o := by
  rw [LineOp.standard, List.append_assoc] at hr
  have hlt : o.code < 256 := ho.trans base.toNat_lt
  refine ⟨_, (Reads.readU8 hlt).run hr, hr.setP, ?_⟩
  rw [decode, if_neg o.code_pos.ne', if_pos ho, StandardOpcode.ofCode_code]
  rfl

/-- Likewise an extended one, behind a 0 and its length. -/
theorem decode_extended {o : ExtendedOpcode} {len : Leb} {operands : List UInt8}
    (hr : r.At (LineOp.extended len o operands ++ t)) :
    ∃ r₁ r₂, Read.readU8 r = (some 0, r₁) ∧ r₂.At (operands ++ t) ∧
      decode base 0 r₁ = decodeExtended r₂ o := by
  rw [LineOp.extended, List.append_assoc, List.append_assoc, List.append_assoc] at hr
  have hlt : o.code < 256 := by cases o <;> decide
  have h₁ := hr.setP
  have h₂ := h₁.setP
  refine ⟨_, _, (Reads.readU8 (by decide)).run hr, h₂.setP, ?_⟩
  rw [decode, if_pos rfl, (Reads.readUleb128_any len).run h₁]
  dsimp only
  rw [(Reads.readU8 hlt).run h₂]
  dsimp only
  rw [ExtendedOpcode.ofCode_code]
  rfl

/-- A standard opcode without operand is decoded as it was written. -/
theorem decodes_plain {o : StandardOpcode} {i : Insn} (ho : o.code < base.toNat)
    (hr : r.At (LineOp.standard o [] ++ t)) (hi : ∀ r₁, decodeStandard r₁ o = .ok (i, r₁)) :
    Decodes base r i t := by
  obtain ⟨r₁, hread, hat, hdec⟩ := decode_standard ho hr
  exact ⟨_, r₁, r₁, hread, hdec.trans (hi r₁), hat⟩

/-- A standard opcode with an operand is decoded as it was written. -/
theorem decodes_operand {α : Type} {o : StandardOpcode} {x : Read α} {bs : List UInt8} {v : α}
    (insn : α → Insn) (ho : o.code < base.toNat) (hr : r.At (LineOp.standard o bs ++ t))
    (hx : ∀ is64, Reads is64 0 x bs v)
    (hi : ∀ r₁, decodeStandard r₁ o = withOperand x .errOperandFetch insn r₁) :
    Decodes base r (insn v) t := by
  obtain ⟨r₁, hread, hat, hdec⟩ := decode_standard ho hr
  exact ⟨_, r₁, _, hread, hdec.trans ((hi r₁).trans (withOperand_eq (hx _) hat)), hat.setP⟩

/-- An extended opcode is decoded as it was written. -/
theorem decodes_extended {α : Type} {o : ExtendedOpcode} {len : Leb} {x : Read α}
    {bs : List UInt8} {v : α} {status : LinenoStatus} (insn : α → Insn)
    (hr : r.At (LineOp.extended len o bs ++ t)) (hx : ∀ is64, Reads is64 0 x bs v)
    (hi : ∀ r₁, decodeExtended r₁ o = withOperand x status insn r₁) :
    Decodes base r (insn v) t := by
  obtain ⟨r₁, r₂, hread, hat, hdec⟩ := decode_extended hr
  exact ⟨_, r₁, _, hread, hdec.trans ((hi r₂).trans (withOperand_eq (hx _) hat)), hat.setP⟩

/-- **A known instruction is read back**, whatever its length in front says. -/
theorem decodes_op {op : LineOp} (hop : op.Readable base) (hr : r.At (op.encode ++ t)) :
    Decodes base r op.asRead t := by
  cases op with
  | special opcode =>
      obtain ⟨hne, hbase⟩ := hop
      have hpos : opcode.toNat ≠ 0 := fun h => hne (UInt8.toNat_inj.mp h)
      refine ⟨_, _, _, (Reads.readU8 opcode.toNat_lt).run hr, ?_, hr.setP⟩
      have hle : ¬ opcode.toNat < base.toNat := Nat.not_lt.mpr hbase
      rw [decode, if_neg hpos, if_neg hle, UInt8.ofNat_toNat]
      rfl
  | copy => exact decodes_plain hop hr fun _ => rfl
  | advancePc l =>
      exact decodes_operand .advancePc hop hr (fun _ => .readUleb128_any l) fun _ => rfl
  | advanceLine l =>
      exact decodes_operand .advanceLine hop hr (fun _ => .readSleb128_any l) fun _ => rfl
  | setFile l =>
      exact decodes_operand .setFile hop hr (fun _ => .readUleb128_any l) fun _ => rfl
  | setColumn l =>
      exact decodes_operand .setColumn hop hr (fun _ => .readUleb128_any l) fun _ => rfl
  | negateStmt => exact decodes_plain hop hr fun _ => rfl
  | setBasicBlock => exact decodes_plain hop hr fun _ => rfl
  | constAddPc => exact decodes_plain hop hr fun _ => rfl
  | fixedAdvancePc n =>
      exact decodes_operand .fixedAdvancePc hop.1 hr (fun _ => .readU16 hop.2) fun _ => rfl
  | setPrologueEnd => exact decodes_plain hop hr fun _ => rfl
  | setEpilogueBegin => exact decodes_plain hop hr fun _ => rfl
  | setIsa l =>
      exact decodes_operand .setIsa hop hr (fun _ => .readUleb128_any l) fun _ => rfl
  | endSequence len =>
      obtain ⟨r₁, r₂, hread, hat, hdec⟩ := decode_extended hr
      exact ⟨_, r₁, r₂, hread, hdec, hat⟩
  | setAddress len a => exact decodes_extended .setAddress hr (fun _ => .readU64 hop) fun _ => rfl
  | defineFile len f =>
      exact decodes_extended .defineFile hr
        (fun _ => (Reads.readString hop).bind (.fileNumbers f)) fun _ => rfl
  | setDiscriminator len l =>
      exact decodes_extended .setDiscriminator hr (fun _ => .readUleb128_any l) fun _ => rfl

/-- The instructions of a unit whose program is written so that each is read back. -/
theorem LineUnit.instructions_loaded {α : Type} {encode : α → List UInt8} {insn : α → Insn}
    {as : List α} (u : LineUnit) (hprogram : u.program = as.flatMap encode)
    (hpos : ∀ a, 0 < (encode a).length)
    (h : ∀ a ∈ as, ∀ r t, r.At (encode a ++ t) → Decodes u.opcodeBase r (insn a) t)
    (p : LinenoProgram) {post : List UInt8} (hr : r.At (u.encode ++ post)) :
    (u.loaded p r).instructions = (as.map insn, none) := by
  have hat := u.at_program p hr
  rw [hprogram] at hat
  refine insns_of_forall_decodes h ?_ hat
  rw [hat.rest_eq]
  exact (Bytes.length_le_length_flatMap hpos as).trans (Nat.le_succ _)

end

/-! ### The table of the standard -/

namespace LineOp

variable (p : LinenoProgram)

/-- An operation advance moves on by whole instructions and by operations within one. -/
def advance (n : Nat) (regs : Registers) : Registers :=
  { regs with
    address := (regs.address + p.minimumInstructionLength.toNat *
      ((regs.opIndex + n) / p.maximumOperationsPerInstruction.toNat)) % 2 ^ 64
    opIndex := (regs.opIndex + n) % p.maximumOperationsPerInstruction.toNat }

/-- The adjusted opcode of a special opcode. -/
def adjusted (opcode : UInt8) : Nat := opcode.toNat - p.opcodeBase.toNat

/-- What an instruction does to the registers, up to the row it appends if it does. -/
def apply : LineOp → Registers → Registers
  | special opcode, regs =>
      advance p (adjusted p opcode / p.lineRange.toNat)
        { regs with line := ((regs.line +
            (p.lineBase.toInt + (adjusted p opcode % p.lineRange.toNat : Nat))) % 2 ^ 32).toNat }
  | copy, regs => regs
  | advancePc l, regs => advance p l.toNat regs
  | advanceLine l, regs => { regs with line := ((regs.line + l.toInt) % 2 ^ 32).toNat }
  | setFile l, regs => { regs with file := l.toNat }
  | setColumn l, regs => { regs with column := l.toNat }
  | negateStmt, regs => { regs with isStmt := !regs.isStmt }
  | setBasicBlock, regs => { regs with basicBlock := true }
  | constAddPc, regs => advance p (adjusted p 255 / p.lineRange.toNat) regs
  | fixedAdvancePc n, regs => { regs with address := (regs.address + n) % 2 ^ 64, opIndex := 0 }
  | setPrologueEnd, regs => { regs with prologueEnd := true }
  | setEpilogueBegin, regs => { regs with epilogueBegin := true }
  | setIsa l, regs => { regs with isa := l.toNat }
  | endSequence _, regs => { regs with endSequence := true }
  | setAddress _ a, regs => { regs with address := a, opIndex := 0 }
  | defineFile .., regs => regs
  | setDiscriminator _ l, regs => { regs with discriminator := l.toNat }

/-- The instructions that append a row. -/
def appends : LineOp → Bool
  | special _ | copy | endSequence _ => true
  | _ => false

/-- The registers behind an instruction: a row clears those that are about one row only, and the
end of a sequence all. -/
def next (op : LineOp) (regs : Registers) : Registers :=
  match op with
  | special _ | copy => { apply p op regs with
      basicBlock := false, prologueEnd := false, epilogueBegin := false, discriminator := 0 }
  | endSequence _ => p.resetRegisters
  | _ => apply p op regs

/-- The file an instruction defines. -/
def defines : LineOp → List FileTableEntry
  | defineFile _ f => [f.entry]
  | _ => []

end LineOp

/-- The rows that instructions append, from `regs` and the files defined so far. -/
def rows (p : LinenoProgram) : Registers → List FileTableEntry → List LineOp → List Row
  | _,    _,     []        => []
  | regs, files, op :: ops =>
      (if op.appends then [{ registers := op.apply p regs, files := files }] else []) ++
        rows p (op.next p regs) (files ++ op.defines) ops

/-! ### Executing -/

section
variable {σ : Type} {p : LinenoProgram}

/-- With one operation in an instruction, `advance_pc` is the advance of the standard as long as
the product keeps below 32 bits. -/
theorem advancePc_eq {regs : Registers} {n : Nat} (hmax : p.maximumOperationsPerInstruction = 1)
    (hindex : regs.opIndex = 0) (hn : n < 2 ^ 32)
    (hlt : p.minimumInstructionLength.toNat * n < 2 ^ 32) :
    p.advancePc n regs = .ok (LineOp.advance p n regs) := by
  rw [LinenoProgram.advancePc, LineOp.advance, hmax, hindex]
  simp only [UInt8.toNat_one, Nat.zero_add, Nat.div_one, Nat.mod_one]
  rw [Nat.mod_eq_of_lt hn, Nat.mul_comm n, Nat.mod_eq_of_lt hlt]
  rfl

/-- Adjusted opcodes are 8-bit numbers, and so is what they advance by. -/
theorem toNat_adjusted {opcode : UInt8} (h : p.opcodeBase ≤ opcode) :
    (opcode - p.opcodeBase).toNat = LineOp.adjusted p opcode :=
  UInt8.toNat_sub_of_le _ _ h

/-- What a special opcode adds to the address. -/
theorem operationAdvance_eq {opcode : UInt8} (hrange : 1 ≤ p.lineRange)
    (h : p.opcodeBase ≤ opcode) :
    p.specialOpcodeOperationAdvance opcode =
      .ok (LineOp.adjusted p opcode / p.lineRange.toNat) := by
  have hne : p.lineRange ≠ 0 := by
    rintro hzero
    rw [hzero] at hrange
    exact absurd hrange (by decide)
  rw [LinenoProgram.specialOpcodeOperationAdvance, if_neg hne, UInt8.toNat_div, toNat_adjusted h]

/-- What a special opcode adds to the line. -/
theorem lineAdvance_eq {opcode : UInt8} (hrange : 1 ≤ p.lineRange) (h : p.opcodeBase ≤ opcode) :
    p.specialOpcodeLineAdvance opcode =
      .ok (p.lineBase.toInt + (LineOp.adjusted p opcode % p.lineRange.toNat : Nat)) := by
  have hne : p.lineRange ≠ 0 := by
    rintro hzero
    rw [hzero] at hrange
    exact absurd hrange (by decide)
  rw [LinenoProgram.specialOpcodeLineAdvance, if_neg hne, UInt8.toNat_mod, toNat_adjusted h]

/-- The address of the operation is advanced as the format says, without bundles. -/
theorem advancePc_adjusted {regs : Registers} (opcode : UInt8)
    (hmax : p.maximumOperationsPerInstruction = 1) (hindex : regs.opIndex = 0) :
    p.advancePc (LineOp.adjusted p opcode / p.lineRange.toNat) regs =
      .ok (LineOp.advance p (LineOp.adjusted p opcode / p.lineRange.toNat) regs) := by
  have hle : LineOp.adjusted p opcode / p.lineRange.toNat ≤ 255 :=
    (Nat.div_le_self _ _).trans ((Nat.sub_le _ _).trans (Nat.le_of_lt_succ opcode.toNat_lt))
  have hmin := p.minimumInstructionLength.toNat_lt
  have hmul := Nat.mul_le_mul (Nat.le_of_lt_succ hmin) hle
  exact advancePc_eq hmax hindex (by omega) (by omega)

/-- Valid instructions can be read. -/
theorem LineOp.Valid.readable {op : LineOp} (h : op.Valid p) : op.Readable p.opcodeBase := by
  cases op with
  | special | copy | negateStmt | setBasicBlock | constAddPc | setPrologueEnd | setEpilogueBegin
  | fixedAdvancePc => exact h
  | advancePc | advanceLine | setFile | setColumn | setIsa => exact h.1
  | endSequence | setDiscriminator => trivial
  | setAddress => exact h.2
  | defineFile => exact h.2.1

theorem lebRead_eq {l : Leb} (h : l.length ≤ 4) : (lebRead l Read.lebStart).vv = l.toNat := by
  have hpow : 128 ^ l.length ≤ 128 ^ 4 := Nat.pow_le_pow_right (by omega) h
  have hlt := l.toNat_lt
  exact (lebRead_eq_iff l).mpr (by omega)

/-- **One instruction** does to the registers what the standard says. -/
theorem asRead_regs (hmax : p.maximumOperationsPerInstruction = 1) (hrange : 1 ≤ p.lineRange)
    {op : LineOp} (hop : op.Valid p) {regs : Registers} (hindex : regs.opIndex = 0) :
    op.asRead.regs p regs = .ok (op.apply p regs) := by
  cases op with
  | special opcode =>
      rw [LineOp.asRead, Insn.regs, lineAdvance_eq hrange hop.2, operationAdvance_eq hrange hop.2]
      exact advancePc_adjusted opcode hmax hindex
  | constAddPc =>
      have hbase : p.opcodeBase ≤ 255 := Nat.le_of_lt_succ p.opcodeBase.toNat_lt
      rw [LineOp.asRead, Insn.regs, operationAdvance_eq hrange hbase]
      exact advancePc_adjusted 255 hmax hindex
  | advancePc l =>
      obtain ⟨-, hl, hlt⟩ := hop
      have hpow : 128 ^ l.length ≤ 128 ^ 4 := Nat.pow_le_pow_right (by omega) hl
      have hn := l.toNat_lt
      rw [LineOp.asRead, Insn.regs, lebRead_eq hl]
      exact advancePc_eq hmax hindex (by omega) hlt
  | advanceLine l =>
      rw [LineOp.asRead, signExtend_lebRead hop.2]
      rfl
  | setFile l | setColumn l | setIsa l | setDiscriminator len l =>
      rw [LineOp.asRead, lebRead_eq hop.2]
      rfl
  | fixedAdvancePc n =>
      rw [LineOp.apply, ← hindex]
      rfl
  | _ => rfl

/-- No instruction divides by zero where the header has a line range. -/
theorem asRead_not_dividesByZero (hmax : p.maximumOperationsPerInstruction = 1)
    (hrange : 1 ≤ p.lineRange) {op : LineOp} (hop : op.Valid p) :
    ¬ op.asRead.DividesByZero p := by
  intro h
  have hregs := Insn.regs_of_dividesByZero h p.resetRegisters
  rw [asRead_regs hmax hrange hop rfl] at hregs
  cases hregs

/-- **An instruction sets the registers** as the format says. -/
theorem asRead_apply (hmax : p.maximumOperationsPerInstruction = 1) (hrange : 1 ≤ p.lineRange)
    {op : LineOp} (hop : op.Valid p) {regs : Registers} (hindex : regs.opIndex = 0) :
    op.asRead.apply p regs = op.apply p regs := by
  rw [Insn.apply, asRead_regs hmax hrange hop hindex]
  rfl

/-- An instruction leaves the registers for the next one as the format says. -/
theorem asRead_next (hmax : p.maximumOperationsPerInstruction = 1) (hrange : 1 ≤ p.lineRange)
    {op : LineOp} (hop : op.Valid p) {regs : Registers} (hindex : regs.opIndex = 0) :
    op.asRead.next p regs = op.next p regs := by
  have happly := asRead_apply hmax hrange hop hindex
  cases op with
  | special | copy => exact congrArg LinenoProgram.clearFlags happly
  | endSequence => rfl
  | _ => exact happly

/-- An instruction appends a row when the format says so. -/
theorem asRead_copies (op : LineOp) : op.asRead.copies = op.appends := by
  cases op <;> rfl

/-- An instruction defines the files that the format says. -/
theorem asRead_files {op : LineOp} (hop : op.Valid p) : op.asRead.files = op.defines := by
  cases op with
  | defineFile len f =>
      obtain ⟨-, -, hd, hm, hn⟩ := hop
      show [f.asRead] = [f.entry]
      rw [FileDecl.asRead, lebRead_eq hd, lebRead_eq hm, lebRead_eq hn]
      rfl
  | _ => rfl

/-- The operation index is that of an operation an instruction has. -/
theorem opIndex_apply_lt (hmax : 0 < p.maximumOperationsPerInstruction.toNat) (op : LineOp)
    {regs : Registers} (h : regs.opIndex < p.maximumOperationsPerInstruction.toNat) :
    (op.apply p regs).opIndex < p.maximumOperationsPerInstruction.toNat := by
  cases op with
  | special | advancePc | constAddPc => exact Nat.mod_lt _ hmax
  | fixedAdvancePc | setAddress => exact hmax
  | _ => exact h

/-- The operation stays within the bundle. -/
theorem opIndex_next_lt (hmax : 0 < p.maximumOperationsPerInstruction.toNat) (op : LineOp)
    {regs : Registers} (h : regs.opIndex < p.maximumOperationsPerInstruction.toNat) :
    (op.next p regs).opIndex < p.maximumOperationsPerInstruction.toNat := by
  have happly := opIndex_apply_lt hmax op h
  cases op with
  | endSequence => exact hmax
  | _ => exact happly

/-- In every row the operation is within the bundle. -/
theorem opIndex_rows_lt (hmax : 0 < p.maximumOperationsPerInstruction.toNat) (ops : List LineOp)
    {regs : Registers} {files : List FileTableEntry}
    (h : regs.opIndex < p.maximumOperationsPerInstruction.toNat) :
    ∀ row ∈ rows p regs files ops,
      row.registers.opIndex < p.maximumOperationsPerInstruction.toNat := by
  induction ops generalizing regs files with
  | nil => exact fun row hrow => absurd hrow List.not_mem_nil
  | cons op ops ih =>
      intro row hrow
      rw [rows, List.mem_append] at hrow
      rcases hrow with hrow | hrow
      · cases happ : op.appends <;> simp only [happ] at hrow
        · cases hrow
        · rw [List.mem_singleton.mp hrow]
          exact opIndex_apply_lt hmax op h
      · exact ih (opIndex_next_lt hmax op h) row hrow

/-- With one operation in an instruction it stays 0. -/
theorem opIndex_next (hmax : p.maximumOperationsPerInstruction = 1) (op : LineOp)
    {regs : Registers} (h : regs.opIndex = 0) : (op.next p regs).opIndex = 0 := by
  have hone : p.maximumOperationsPerInstruction.toNat = 1 := congrArg UInt8.toNat hmax
  have hindex : regs.opIndex < p.maximumOperationsPerInstruction.toNat := by omega
  have hlt := opIndex_next_lt (hone ▸ Nat.one_pos) op hindex
  exact Nat.lt_one_iff.mp (hone ▸ hlt)

/-- The rows of the standard are those that are reported. -/
theorem rows_eq_insnRows (hmax : p.maximumOperationsPerInstruction = 1) (hrange : 1 ≤ p.lineRange)
    {ops : List LineOp} (hops : ∀ op ∈ ops, op.Valid p) {regs : Registers}
    {files : List FileTableEntry} (hindex : regs.opIndex = 0) :
    rows p regs files ops = insnRows p regs files (ops.map LineOp.asRead) := by
  induction ops generalizing regs files with
  | nil => rfl
  | cons op ops ih =>
      have hop := hops op (.head _)
      rw [rows, List.map_cons, insnRows, asRead_copies, asRead_apply hmax hrange hop hindex,
        asRead_next hmax hrange hop hindex, asRead_files hop,
        ih (fun o ho => hops o (.tail _ ho)) (opIndex_next hmax op hindex)]

theorem LineOp.length_encode_pos (op : LineOp) : 0 < op.encode.length := by
  cases op <;> simp [encode, standard, extended]

/-! ### Whole programs -/

/-- The bytes of the program are those of instructions that are known. -/
structure Spells (p : LinenoProgram) (ops : List LineOp) : Prop where
  readable : ∀ op ∈ ops, op.Readable p.opcodeBase
  headerLength_le : p.headerLength ≤ p.reader.bytes.length
  bytes_eq : p.reader.bytes.drop p.headerLength = encodeOps ops

/-- The program is decoded to its instructions. -/
theorem Spells.instructions {ops : List LineOp} (h : Spells p ops) :
    p.instructions = (ops.map LineOp.asRead, none) := by
  have hat := p.reader.at_seek h.headerLength_le
  rw [h.bytes_eq] at hat
  refine insns_of_forall_decodes (fun op hop _ _ => decodes_op (h.readable op hop)) ?_ hat
  rw [hat.rest_eq]
  exact (Bytes.length_le_length_flatMap LineOp.length_encode_pos ops).trans (Nat.le_succ _)

/-- A unit of `.debug_line` whose program is of these instructions, as `read_header` leaves it. -/
theorem LineUnit.spells (u : LineUnit) {r : Reader} {post : List UInt8} {ops : List LineOp}
    (hr : r.At (u.encode ++ post)) (hops : u.program = encodeOps ops)
    (hreadable : ∀ op ∈ ops, op.Readable u.opcodeBase) : Spells (u.loaded p r) ops := by
  have hbytes := u.bytes_loaded p hr
  refine ⟨hreadable, ?_, ?_⟩
  · rw [hbytes, List.length_append]
    exact Nat.le_add_right _ _
  · rw [hbytes, ← hops]
    exact List.drop_left

/-- The bytes of the program are those of the instructions. -/
structure HasOps (p : LinenoProgram) (ops : List LineOp) : Prop where
  valid : ∀ op ∈ ops, op.Valid p
  headerLength_le : p.headerLength ≤ p.reader.bytes.length
  bytes_eq : p.reader.bytes.drop p.headerLength = encodeOps ops

/-- A program of valid instructions is one. -/
theorem HasOps.spells {ops : List LineOp} (h : HasOps p ops) : Spells p ops where
  readable op hop := (h.valid op hop).readable
  headerLength_le := h.headerLength_le
  bytes_eq := h.bytes_eq

/-- A program that was written down has its instructions. -/
theorem LineUnit.hasOps (u : LineUnit) {r : Reader} {post : List UInt8} {ops : List LineOp}
    (hr : r.At (u.encode ++ post)) (hops : u.program = encodeOps ops)
    (hvalid : ∀ op ∈ ops, op.Valid (u.loaded p r)) : HasOps (u.loaded p r) ops :=
  have hspells := u.spells (p := p) hr hops fun op hop => (hvalid op hop).readable
  ⟨hvalid, hspells.headerLength_le, hspells.bytes_eq⟩

/-- The table that a program of these instructions stands for. -/
def table (p : LinenoProgram) (ops : List LineOp) : List Row := rows p p.resetRegisters [] ops

section
variable {ops : List LineOp} (hmax : p.maximumOperationsPerInstruction = 1)
  (hrange : 1 ≤ p.lineRange) (h : HasOps p ops)
include h

/-- The program is decoded to its instructions. -/
theorem HasOps.instructions : p.instructions = (ops.map LineOp.asRead, none) :=
  h.spells.instructions

include hmax hrange

/-- The program does not divide by zero. -/
theorem HasOps.not_dividesByZero : ∀ i ∈ p.instructions.1, ¬ i.DividesByZero p := by
  rw [h.instructions]
  intro i hi
  obtain ⟨op, hop, rfl⟩ := List.mem_map.mp hi
  exact asRead_not_dividesByZero hmax hrange (h.valid op hop)

/-- The run reports the pairs of rows. -/
theorem HasOps.ranges : p.ranges = (pairs (table p ops)).map (rangeOf p) := by
  rw [LinenoProgram.ranges, h.instructions, table, rows_eq_insnRows hmax hrange h.valid rfl]

/-- **What is reported.**  `run` gives the delegate the consecutive rows of the same sequence, in
order, until it stops. -/
theorem run_eq_feed (delegate : Delegate σ) (s : σ) :
    p.run delegate s = feed delegate ((pairs (table p ops)).map (rangeOf p)) s := by
  rw [run_eq_reported (h.not_dividesByZero hmax hrange), h.ranges hmax hrange, h.instructions]
  rcases feed delegate ((pairs (table p ops)).map (rangeOf p)) s with c | ⟨status, s'⟩
  · rfl
  · exact congrArg (fun st => Except.ok (st, s')) (ite_eq_right_iff.mpr Eq.symm)

end

/-! ### Source lines -/

/-- The address is one of the instructions from the first row up to the second. -/
def Covers (addr : Nat) (q : Row × Row) : Prop :=
  q.1.registers.address ≤ addr ∧ addr < q.2.registers.address

/-- Without bundles every row is at the first operation. -/
theorem opIndex_rows (hmax : p.maximumOperationsPerInstruction = 1) (ops : List LineOp)
    {regs : Registers} {files : List FileTableEntry} (h : regs.opIndex = 0) :
    ∀ row ∈ rows p regs files ops, row.registers.opIndex = 0 := by
  intro row hrow
  have hone : p.maximumOperationsPerInstruction.toNat = 1 := congrArg UInt8.toNat hmax
  have hlt := opIndex_rows_lt (hone ▸ Nat.one_pos) ops (by omega) row hrow
  exact Nat.lt_one_iff.mp (hone ▸ hlt)

/-- `contains`, for addresses without operations. -/
theorem contains_iff {range : LinenoRange} (h : range.start.opIndex = 0) (addr : Nat) :
    range.contains addr 0 = true ↔
      range.start.address ≤ addr ∧ addr < range.registers.address := by
  rw [LinenoRange.contains, h]
  by_cases hlo : addr < range.start.address
  · rw [if_pos (.inl hlo)]
    exact iff_of_false nofun (by omega)
  · rw [if_neg (by omega)]
    by_cases hhi : addr ≥ range.registers.address
    · rw [if_pos (.inl hhi)]
      exact iff_of_false nofun (by omega)
    · rw [if_neg (by omega)]
      exact iff_of_true rfl (by omega)

/-- `q` is the first of the pairs that covers the address. -/
def FirstCover (addr : Nat) (qs : List (Row × Row)) (q : Row × Row) : Prop :=
  Covers addr q ∧ ∃ pre post, qs = pre ++ q :: post ∧ ∀ q' ∈ pre, ¬ Covers addr q'

namespace LinenoProgram

/-- What the names of a program are relative to: the compilation directory, or the current directory
where the unit has none. -/
def baseDirectory (p : LinenoProgram) (currentDir : Filename) : Filename :=
  let named := p.compilationDirectory.getD []
  let d := if named = [] then currentDir else named
  if d.isAbsolute then Filename.resolve [] d else d

/-- The name of a file as the standard has it: resolved against its directory, which is the
compilation directory for 0 and else relative to it; `none` for a directory there is not. -/
def fileName (p : LinenoProgram) (currentDir : Filename) (e : FileTableEntry) : Option Filename :=
  if e.directoryIndex = 0 then some (Filename.resolve (p.baseDirectory currentDir) e.filename)
  else (p.includeDirectories[e.directoryIndex - 1]?).map fun d =>
    Filename.resolve (Filename.resolve (p.baseDirectory currentDir) d) e.filename

/-- `f` is the name of the file with the number `i`, and empty if there is none. -/
def Names (p : LinenoProgram) (currentDir : Filename) (files : List FileTableEntry) (i : Nat)
    (f : Filename) : Prop :=
  match p.getFileEntry files i with
  | none   => f = []
  | some e => p.fileName currentDir e = some f

/-- The directory of the file is one of those there are, and `make_absolute_to_dir` resolves: it
makes the file's name of the name in its directory and, of that, in the compilation directory. -/
def Resolves (p : LinenoProgram) (currentDir : Filename) (e : FileTableEntry) : Prop :=
  ∃ d f2 f, p.directory e = .ok d ∧
    Filename.makeAbsoluteToDir currentDir e.filename d = .ok f2 ∧
    Filename.makeAbsoluteToDir currentDir f2 (p.compilationDirectory.getD []) = .ok f ∧
    p.fileName currentDir e = some f

end LinenoProgram

/-- A name is made absolute when `make_absolute_to_dir` returns. -/
theorem absolute_eq_ok {currentDir f absdir g : Filename} :
    LinenoProgram.absolute currentDir f absdir = .ok g ↔
      Filename.makeAbsoluteToDir currentDir f absdir = .ok g := by
  rw [LinenoProgram.absolute]
  rcases Filename.makeAbsoluteToDir currentDir f absdir with e | g'
  · exact iff_of_false nofun nofun
  · exact Iff.rfl.trans (by simp)

/-- `get_absolute_filename` returns the file's name exactly if the file, should there be one of that
number, resolves. -/
theorem getAbsoluteFilename_names_iff (currentDir : Filename) (files : List FileTableEntry)
    (i : Nat) :
    (∃ f, p.getAbsoluteFilename currentDir files i = .ok f ∧ p.Names currentDir files i f) ↔
      ∀ e ∈ p.getFileEntry files i, p.Resolves currentDir e := by
  unfold LinenoProgram.getAbsoluteFilename LinenoProgram.Names
  cases p.getFileEntry files i with
  | none => exact iff_of_true ⟨[], rfl, rfl⟩ nofun
  | some e =>
      simp only [Option.mem_def, Option.some.injEq, forall_eq', LinenoProgram.Resolves,
        ← absolute_eq_ok]
      rcases hd : p.directory e with c | d
      · exact iff_of_false (fun ⟨f, hf, _⟩ => nomatch hf) (fun ⟨d, f2, f, h, _⟩ => nomatch h)
      · rcases hf : LinenoProgram.absolute currentDir e.filename d with c | f2
        · simp [bind, Except.bind, hf]
        · simp [bind, Except.bind, hf]

/-- What `get_source_line` is to return at an address: true exactly if a pair covers it, with the
file, line and column of the first row of the first such pair.  The file is the one of that number
among those of the header and those defined up to the second row. -/
def FindsSourceLine (p : LinenoProgram) (currentDir : Filename) (qs : List (Row × Row))
    (addr : Nat) : Prop :=
  ∃ found, p.getSourceLine currentDir addr = .ok found ∧
    (found.isSome = true ↔ ∃ q ∈ qs, Covers addr q) ∧
    ∀ source ∈ found, ∃ q, FirstCover addr qs q ∧
      p.Names currentDir q.2.files q.1.registers.file source.filename ∧
      source.line = q.1.registers.line ∧ source.column = q.1.registers.column

/-- **`get_source_line` in terms of the table**: the first pair of rows that covers the address. -/
theorem getSourceLine_eq {ops : List LineOp} (hmax : p.maximumOperationsPerInstruction = 1)
    (hrange : 1 ≤ p.lineRange) (h : HasOps p ops) (currentDir : Filename) (addr : Nat) :
    p.getSourceLine currentDir addr =
      match (pairs (table p ops)).find? (fun q => (rangeOf p q).contains addr 0) with
      | none   => .ok none
      | some q => (p.getAbsoluteFilename currentDir q.2.files q.1.registers.file).map fun f =>
          some { filename := f, line := q.1.registers.line, column := q.1.registers.column } := by
  rw [getSourceLine_reported (h.not_dividesByZero hmax hrange), h.ranges hmax hrange,
    List.find?_map, Function.comp_def]
  cases (pairs (table p ops)).find? fun q => (rangeOf p q).contains addr 0 with
  | none => rfl
  | some q => rfl

/-- `contains` decides whether a pair covers the address. -/
theorem covers_iff_contains (hmax : p.maximumOperationsPerInstruction = 1) {ops : List LineOp}
    {q : Row × Row} (hq : q ∈ pairs (table p ops)) (addr : Nat) :
    (rangeOf p q).contains addr 0 = true ↔ Covers addr q :=
  have hindex : (rangeOf p q).start.opIndex = 0 :=
    opIndex_rows hmax ops rfl q.1 (mem_of_mem_pairs hq)
  contains_iff hindex addr

/-- The search finds the first pair that covers the address. -/
theorem find?_eq_some_iff_firstCover (hmax : p.maximumOperationsPerInstruction = 1)
    (ops : List LineOp) (addr : Nat) (q : Row × Row) :
    (pairs (table p ops)).find? (fun q => (rangeOf p q).contains addr 0) = some q ↔
      FirstCover addr (pairs (table p ops)) q := by
  rw [List.find?_eq_some_iff_append, FirstCover]
  constructor
  · rintro ⟨hc, pre, post, heq, hpre⟩
    have hmem : ∀ q' ∈ pre ++ q :: post, q' ∈ pairs (table p ops) := fun q' h => heq ▸ h
    refine ⟨(covers_iff_contains hmax (hmem q (by simp)) addr).mp hc, pre, post, heq, ?_⟩
    intro q' hq' hcov
    have hno := hpre q' hq'
    rw [(covers_iff_contains hmax (hmem q' (by simp [hq'])) addr).mpr hcov] at hno
    cases hno
  · rintro ⟨hc, pre, post, heq, hpre⟩
    have hmem : ∀ q' ∈ pre ++ q :: post, q' ∈ pairs (table p ops) := fun q' h => heq ▸ h
    refine ⟨(covers_iff_contains hmax (hmem q (by simp)) addr).mpr hc, pre, post, heq, ?_⟩
    intro q' hq'
    have hno := mt (covers_iff_contains hmax (hmem q' (by simp [hq'])) addr).mp (hpre q' hq')
    simpa using hno

/-- **The source line is found** exactly if the file of the first pair that covers the address has a
name that resolves. -/
theorem findsSourceLine_iff {ops : List LineOp} (hmax : p.maximumOperationsPerInstruction = 1)
    (hrange : 1 ≤ p.lineRange) (h : HasOps p ops) (currentDir : Filename) (addr : Nat) :
    FindsSourceLine p currentDir (pairs (table p ops)) addr ↔
      ∀ q, FirstCover addr (pairs (table p ops)) q →
        ∀ e ∈ p.getFileEntry q.2.files q.1.registers.file, p.Resolves currentDir e := by
  have hfirst := find?_eq_some_iff_firstCover hmax ops addr
  have hget := getSourceLine_eq hmax hrange h currentDir addr
  cases hfind : (pairs (table p ops)).find? (fun q => (rangeOf p q).contains addr 0) with
  | none =>
      rw [hfind] at hget
      have hno : ∀ q ∈ pairs (table p ops), ¬ Covers addr q := by
        intro q hq hcov
        have hall := List.find?_eq_none.mp hfind q hq
        exact hall ((covers_iff_contains hmax hq addr).mpr hcov)
      refine iff_of_true ⟨none, hget, iff_of_false nofun ?_, nofun⟩ ?_
      · rintro ⟨q, hq, hcov⟩
        exact hno q hq hcov
      · rintro q ⟨hcov, pre, post, heq, -⟩
        exact absurd hcov (hno q (heq ▸ by simp))
  | some q =>
      rw [hfind] at hget
      dsimp only at hget
      have hcover := (hfirst q).mp hfind
      have hmem : q ∈ pairs (table p ops) := List.mem_of_find?_eq_some hfind
      have hunique : ∀ q', FirstCover addr (pairs (table p ops)) q' → q' = q := by
        intro q' hq'
        exact Option.some.inj (((hfirst q').mpr hq').symm.trans hfind)
      constructor
      · rintro ⟨found, hfound, -, hsource⟩ q' hq'
        rw [hunique q' hq', ← getAbsoluteFilename_names_iff]
        rw [hget] at hfound
        rcases hf : p.getAbsoluteFilename currentDir q.2.files q.1.registers.file with c | f
        · rw [hf] at hfound
          cases hfound
        · rw [hf] at hfound
          cases hfound
          obtain ⟨q'', hq'', hnames, -⟩ := hsource _ rfl
          rw [hunique q'' hq''] at hnames
          exact ⟨f, rfl, hnames⟩
      · intro hall
        obtain ⟨f, hf, hnames⟩ := (getAbsoluteFilename_names_iff currentDir _ _).mpr (hall q hcover)
        rw [hf] at hget
        refine ⟨_, hget, iff_of_true rfl ⟨q, hmem, hcover.1⟩, ?_⟩
        intro source hsource
        cases hsource
        exact ⟨q, hcover, hnames, rfl, rfl⟩

end

/-! ### A file in a relative directory -/

/-- The file `name` in the directory `inc`. -/
def includedFile (name : Filename) : FileDecl where
  name := name
  directory := .byte 1
  mtime := .byte 0
  size := .byte 0

/-- Sixteen bytes of code from 4096 on. -/
def sixteenBytes : List LineOp :=
  [.setAddress (.byte 9) 4096, .copy, .advancePc (.byte 16), .endSequence (.byte 1)]

section
variable (name : Filename) (h : name ≠ [] ∧ 0 ∉ name)

/-- A program with a file in a directory that it includes. -/
def includedUnit : LineUnit where
  is64 := false
  version := 4
  minimumInstructionLength := 1
  maximumOperations := 1
  defaultIsStmt := 1
  lineBase := 0xfb
  lineRange := 14
  opcodeBase := 13
  opcodeLengths := [0, 1, 1, 1, 1, 0, 0, 0, 1, 0, 0, 1]
  directories := [[0x69, 0x6e, 0x63]]
  files := [includedFile name]
  program := encodeOps sixteenBytes
  two_le := by decide
  le_four := by decide
  length_opcodeLengths := rfl
  directories_named := by simp
  files_named := by
    intro f hf
    rw [List.mem_singleton.mp hf]
    exact h

/-- The unit as it is read where the section's reader is `r`, for the compilation directory
`/b`. -/
def includedProgram (r : Reader) : LinenoProgram :=
  (includedUnit name h).loaded { compilationDirectory := some [0x2f, 0x62] } r

/-- The program has its instructions. -/
theorem includedProgram_hasOps {r : Reader} {post : List UInt8}
    (hr : r.At ((includedUnit name h).encode ++ post)) :
    HasOps (includedProgram name h r) sixteenBytes := by
  refine (includedUnit name h).hasOps hr rfl ?_
  intro op hop
  simp only [sixteenBytes, List.mem_cons, List.not_mem_nil, or_false] at hop
  rcases hop with rfl | rfl | rfl | rfl
  · exact ⟨⟨by decide, by decide⟩, by decide⟩
  · exact (by decide : 0x01 < 13)
  · exact ⟨(by decide : 0x02 < 13), by decide, (by decide : 1 * 16 < 2 ^ 32)⟩
  · exact ⟨by decide, by decide⟩

/-- The rows of the sixteen bytes. -/
def firstRow : Registers :=
  { address := 4096, file := 1, line := 1, column := 0, isStmt := true, basicBlock := false,
    endSequence := false, prologueEnd := false, epilogueBegin := false, isa := 0, opIndex := 0,
    discriminator := 0 }

/-- The program makes one pair of rows. -/
theorem pairs_sixteenBytes (r : Reader) :
    pairs (table (includedProgram name h r) sixteenBytes) =
      [({ registers := firstRow, files := [] },
        { registers := { firstRow with address := 4112, endSequence := true }, files := [] })] := by
  simp [table, rows, sixteenBytes, LineOp.appends, LineOp.apply, LineOp.next, LineOp.defines,
    LineOp.advance, includedProgram, LineUnit.loaded, LineUnit.header, includedUnit, pairs,
    firstRow, LinenoProgram.resetRegisters, Leb.byte, Leb.toNat]

/-- A reader of a section with this unit. -/
def includedReader (hlen : (includedUnit name h).encode.length < 2 ^ 64) : Reader :=
  .ofBuffer 0 (includedUnit name h).encode (by rwa [Nat.zero_add])

theorem at_includedReader (hlen : (includedUnit name h).encode.length < 2 ^ 64) :
    (includedReader name h hlen).At ((includedUnit name h).encode ++ []) :=
  (Reader.at_ofBuffer _ _ _).append_nil

/-- The pair covers sixteen bytes, of the file in the table. -/
theorem firstCover_sixteenBytes (r : Reader) {addr : Nat} (hlo : 4096 ≤ addr) (hhi : addr < 4112) :
    ∃ q, FirstCover addr (pairs (table (includedProgram name h r) sixteenBytes)) q ∧
      (includedProgram name h r).getFileEntry q.2.files q.1.registers.file =
        some (includedFile name).asRead := by
  rw [pairs_sixteenBytes]
  refine ⟨_, ⟨?_, [], [], (List.nil_append _).symm, fun q' hq' => absurd hq' List.not_mem_nil⟩, ?_⟩
  · exact ⟨hlo, hhi⟩
  · rfl

end

theorem includedProgram_lineRange (name : Filename) (h : name ≠ [] ∧ 0 ∉ name) (r : Reader) :
    1 ≤ (includedProgram name h r).lineRange := (by decide : (1 : UInt8) ≤ 14)

/-- `../f.c` -/
def climbingName : Filename := [0x2e, 0x2e, 0x2f, 0x66, 0x2e, 0x63]

/-- `f.c` -/
def plainName : Filename := [0x66, 0x2e, 0x63]

theorem climbingName_named : climbingName ≠ [] ∧ 0 ∉ climbingName := by decide

theorem plainName_named : plainName ≠ [] ∧ 0 ∉ plainName := by decide

/-- A plain name resolves. -/
theorem resolves_plain (r : Reader) :
    (includedProgram _ plainName_named r).Resolves [0x2f] (includedFile plainName).asRead := by
  have hinc : Filename.makeAbsoluteToDir [0x2f] plainName [0x69, 0x6e, 0x63] =
      .ok [0x69, 0x6e, 0x63, 0x2f, 0x66, 0x2e, 0x63] := by decide +kernel
  have habs : Filename.makeAbsoluteToDir [0x2f] [0x69, 0x6e, 0x63, 0x2f, 0x66, 0x2e, 0x63]
      [0x2f, 0x62] = .ok [0x2f, 0x62, 0x2f, 0x69, 0x6e, 0x63, 0x2f, 0x66, 0x2e, 0x63] := by
    decide +kernel
  have hresolve : Filename.resolve (Filename.resolve (Filename.resolve [] [0x2f, 0x62])
      [0x69, 0x6e, 0x63]) plainName =
        [0x2f, 0x62, 0x2f, 0x69, 0x6e, 0x63, 0x2f, 0x66, 0x2e, 0x63] := by decide +kernel
  exact ⟨_, _, _, rfl, hinc, habs, congrArg some hresolve⟩

end NovaProva.Dwarf
