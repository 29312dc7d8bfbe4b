import NovaProva.Dwarf.Rows

/-!
# Dwarf — Unknown opcodes

The standard lets a consumer skip opcodes it does not know: the header says how many LEB128
operands each standard opcode has, and an extended one has its length in front.  `run` uses
neither.  A standard opcode that is not known is taken for one without operands, an extended one
ends the run.

* `LineInsn`: an instruction as it is written, known or not.
* `decodes_insn`: what is read of one, if its opcode is known or has no operands.
* `skips_unknown_iff`: the opcodes that can be inserted into every program.
-/

namespace NovaProva.Dwarf

/-! ### Unknown opcodes -/

/-- What a header says of its standard opcodes: where the special ones begin, and how many operands
each of them has. -/
structure OpcodeTable where
  base : UInt8
  lengths : List UInt8
  length_lengths : lengths.length = base.toNat - 1

/-- The table of lengths in the header. -/
def LineUnit.opcodes (u : LineUnit) : OpcodeTable where
  base := u.opcodeBase
  lengths := u.opcodeLengths
  length_lengths := u.length_opcodeLengths

/-- The declared number of operands of a standard opcode. -/
def OpcodeTable.operands (ot : OpcodeTable) (code : Nat) : Nat :=
  (ot.lengths.getD (code - 1) 0).toNat

/-- An opcode, by its number. -/
inductive Opcode where
  | standard (code : Nat)
  | extended (code : Nat)

/-- The opcodes that the program does not know. -/
def Opcode.Unknown (ot : OpcodeTable) : Opcode → Prop
  | standard code => 13 ≤ code ∧ code < ot.base.toNat
  | extended code => code < 256 ∧ ExtendedOpcode.ofCode code = none

/-- The standard opcodes without operands. -/
def Opcode.Bare (ot : OpcodeTable) : Opcode → Prop
  | standard code => ot.operands code = 0
  | extended _    => False

/-- An instruction, known or not. -/
inductive LineInsn where
  | known (op : LineOp)
  | unknownStandard (code : Nat) (operands : List Leb)
  | unknownExtended (length : Leb) (code : Nat) (payload : List UInt8)

namespace LineInsn

/-- The bytes of an instruction. -/
def encode : LineInsn → List UInt8
  | known op                            => op.encode
  | unknownStandard code operands       => Bytes.leBytes 1 code ++ operands.flatMap Leb.bytes
  | unknownExtended length code payload =>
      Bytes.leBytes 1 0 ++ (length.bytes ++ (Bytes.leBytes 1 code ++ payload))

/-- An unknown instruction has one of the `opcodes`, and as many operands as its opcode is declared
with, or the length that is in front of it. -/
def Written (ot : OpcodeTable) (opcodes : Set Opcode) : LineInsn → Prop
  | known op => op.Readable ot.base
  | unknownStandard code operands =>
      .standard code ∈ opcodes ∧ (Opcode.standard code).Unknown ot ∧
        operands.length = ot.operands code
  | unknownExtended length code payload =>
      .extended code ∈ opcodes ∧ (Opcode.extended code).Unknown ot ∧
        length.toNat = payload.length + 1

/-- The instruction, if its opcode is known. -/
def op? : LineInsn → Option LineOp
  | known op => some op
  | _        => none

/-- What the loop decodes it to. -/
def asRead : LineInsn → Insn
  | known op => op.asRead
  | _        => .unknown

end LineInsn

/-- The bytes of a program. -/
def encodeInsns (is : List LineInsn) : List UInt8 := is.flatMap LineInsn.encode

/-- The instructions without those that are not known. -/
def knownOps (is : List LineInsn) : List LineOp := is.filterMap LineInsn.op?

theorem ofCode_eq_none {code : Nat} (h : 13 ≤ code) : StandardOpcode.ofCode code = none := by
  refine List.find?_eq_none.mpr fun o _ => ?_
  have hlt : o.code < 13 := by cases o <;> decide
  simpa using Nat.ne_of_lt (hlt.trans_le h)

/-- A standard opcode that is not known is read alone. -/
theorem decodes_unknownStandard {base : UInt8} {r : Reader} {code : Nat} {t : List UInt8}
    (h : 13 ≤ code) (hbase : code < base.toNat) (hr : r.At (Bytes.leBytes 1 code ++ t)) :
    Decodes base r .unknown t := by
  have hlt : code < 256 := hbase.trans base.toNat_lt
  refine ⟨_, _, _, (Reads.readU8 hlt).run hr, ?_, hr.setP⟩
  rw [decode, if_neg (by omega), if_pos hbase, ofCode_eq_none h]
  rfl

theorem decodes_insn {ot : OpcodeTable} {opcodes : Set Opcode} {i : LineInsn} {r : Reader}
    {t : List UInt8} (hbare : ∀ o ∈ opcodes, o.Unknown ot → o.Bare ot)
    (hi : i.Written ot opcodes) (hr : r.At (i.encode ++ t)) :
    Decodes ot.base r i.asRead t := by
  cases i with
  | known op => exact decodes_op hi hr
  | unknownStandard code operands =>
      obtain ⟨hmem, hunknown, hcount⟩ := hi
      rw [hbare _ hmem hunknown, List.length_eq_zero_iff] at hcount
      rw [hcount, LineInsn.encode, List.flatMap_nil, List.append_nil] at hr
      exact decodes_unknownStandard hunknown.1 hunknown.2 hr
  | unknownExtended length code payload => exact absurd (hbare _ hi.1 hi.2.1) id

theorem LineInsn.length_encode_pos (i : LineInsn) : 0 < i.encode.length := by
  cases i with
  | known op => exact op.length_encode_pos
  | unknownStandard code operands => simp [encode]
  | unknownExtended length code payload => simp [encode]

/-! ### Inserting -/

section
variable {σ : Type} {p : LinenoProgram} {delegate : Delegate σ} {ending : Option LinenoStatus}

theorem execute_unknown (rs : RunState) (s : σ) :
    Insn.unknown.execute p delegate rs s = .ok (rs, s) := by
  show Except.ok (({ rs with additionalFiles := rs.additionalFiles ++ [] } : RunState), s) = _
  rw [List.append_nil]

theorem executeAll_unknown (is : List Insn) (rs : RunState) (s : σ) :
    executeAll p delegate ending (.unknown :: is) rs s =
      executeAll p delegate ending is rs s := by
  cases hrun : rs.running with
  | false => rw [executeAll_not_running hrun, executeAll_not_running hrun]
  | true =>
      rw [executeAll, if_pos hrun, execute_unknown]
      rfl

/-- Unknown opcodes that are read alone do nothing. -/
theorem executeAll_knownOps (is : List LineInsn) (rs : RunState) (s : σ) :
    executeAll p delegate ending (is.map LineInsn.asRead) rs s =
      executeAll p delegate ending ((knownOps is).map LineOp.asRead) rs s := by
  induction is generalizing rs s with
  | nil => rfl
  | cons i is ih =>
      cases i with
      | known op =>
          show executeAll p delegate ending (op.asRead :: _) rs s =
            executeAll p delegate ending (op.asRead :: _) rs s
          rw [executeAll, executeAll]
          split
          · congr 1
            funext q
            exact ih q.1 q.2
          · rfl
      | unknownStandard code operands => exact (executeAll_unknown _ rs s).trans (ih rs s)
      | unknownExtended length code payload => exact (executeAll_unknown _ rs s).trans (ih rs s)

/-- What a program does to its registers and which ranges it reports does not depend on where it is
read from. -/
theorem executeAll_withReader (r : Reader) (n : Nat) {delegate' : Delegate σ}
    (h : ∀ start registers files s, delegate ⟨p, start, registers, files⟩ s =
      delegate' ⟨{ p with reader := r, headerLength := n }, start, registers, files⟩ s)
    (is : List Insn) (rs : RunState) (s : σ) :
    executeAll p delegate ending is rs s =
      executeAll { p with reader := r, headerLength := n } delegate' ending is rs s := by
  have hcopy : ∀ (rs : RunState) (s : σ), p.copy delegate rs s =
      LinenoProgram.copy { p with reader := r, headerLength := n } delegate' rs s := by
    intro rs s
    simp only [LinenoProgram.copy, LinenoProgram.range, h]
  have hexec : ∀ (i : Insn) (rs : RunState) (s : σ), i.execute p delegate rs s =
      i.execute { p with reader := r, headerLength := n } delegate' rs s := by
    intro i rs s
    have hregs : i.regs { p with reader := r, headerLength := n } rs.registers =
        i.regs p rs.registers := by cases i <;> rfl
    simp only [Insn.execute, hregs, hcopy]
    rfl
  induction is generalizing rs s with
  | nil => rfl
  | cons i is ih =>
      rw [executeAll, executeAll, hexec]
      split
      · congr 1
        funext q
        exact ih q.1 q.2
      · rfl

end

/-- The unit with another program. -/
def LineUnit.withProgram (u : LineUnit) (program : List UInt8) : LineUnit :=
  { u with program := program }

/-- `q` is what `read_header` makes of `p` where the unit is. -/
def LineUnit.Loads (u : LineUnit) (p q : LinenoProgram) : Prop :=
  u.Fits ∧ ∃ r post rest, r.At (u.encode ++ post) ∧ p.readHeader r = .ok (some q, rest)

/-- A delegate that looks at the rows of a range and at the files that are defined up to it. -/
def rowsDelegate {σ : Type} (receive : Registers → Registers → List FileTableEntry → σ →
    Except Crash (Bool × σ)) : Delegate σ :=
  fun range => receive range.start range.registers range.additionalFiles

/-- Every delegate is given the same ranges, and every address has the same source line. -/
structure Alike (q q' : LinenoProgram) : Prop where
  ranges : ∀ {σ : Type} (receive : Registers → Registers → List FileTableEntry → σ →
    Except Crash (Bool × σ)) (s : σ),
    (q.run (rowsDelegate receive) s).map Prod.snd = (q'.run (rowsDelegate receive) s).map Prod.snd
  lines : ∀ currentDir addr, q.getSourceLine currentDir addr = q'.getSourceLine currentDir addr

/-- Instructions with the `opcodes`, which are not known, can be inserted into every program whose
header has this table. -/
def Skips (ot : OpcodeTable) (opcodes : Set Opcode) : Prop :=
  ∀ u : LineUnit, u.opcodes = ot → ∀ is : List LineInsn, (∀ i ∈ is, i.Written ot opcodes) →
    ∀ p q q', (u.withProgram (encodeInsns is)).Loads p q →
      (u.withProgram (encodeOps (knownOps is))).Loads p q' → Alike q q'

theorem LineUnit.Loads.eq {u : LineUnit} {p q : LinenoProgram} (h : u.Loads p q) :
    ∃ r post, r.At (u.encode ++ post) ∧ q = u.loaded p r := by
  obtain ⟨hfits, r, post, rest, hr, hread⟩ := h
  rw [u.readHeader_lineUnit hfits p hr] at hread
  injection hread with hread
  injection hread with hq
  exact ⟨r, post, hr, (Option.some.inj hq).symm⟩

theorem LineUnit.Loads.instructions {u : LineUnit} {p q : LinenoProgram} {opcodes : Set Opcode}
    {is : List LineInsn} (hbare : ∀ o ∈ opcodes, o.Unknown u.opcodes → o.Bare u.opcodes)
    (his : ∀ i ∈ is, i.Written u.opcodes opcodes) (h : (u.withProgram (encodeInsns is)).Loads p q) :
    q.instructions = (is.map LineInsn.asRead, none) := by
  obtain ⟨r, post, hr, rfl⟩ := h.eq
  exact (u.withProgram (encodeInsns is)).instructions_loaded rfl LineInsn.length_encode_pos
    (fun i hi _ _ => decodes_insn hbare (his i hi)) p hr

theorem encodeInsns_known (ops : List LineOp) :
    encodeInsns (ops.map .known) = encodeOps ops := by
  rw [encodeInsns, List.flatMap_map]
  rfl

/-- Standard opcodes without operands can be inserted. -/
theorem skips_of_bare {ot : OpcodeTable} {opcodes : Set Opcode}
    (hbare : ∀ o ∈ opcodes, o.Unknown ot → o.Bare ot) : Skips ot opcodes := by
  rintro u rfl is his p q q' hq hq'
  have hops : ∀ i ∈ (knownOps is).map .known, LineInsn.Written u.opcodes opcodes i := by
    intro i hi
    obtain ⟨op, hop, rfl⟩ := List.mem_map.mp hi
    obtain ⟨j, hj, hknown⟩ := List.mem_filterMap.mp hop
    cases j with
    | known op' =>
        cases hknown
        exact his _ hj
    | unknownStandard => cases hknown
    | unknownExtended => cases hknown
  have hinsns := hq.instructions hbare his
  rw [← encodeInsns_known] at hq'
  have hinsns' := hq'.instructions hbare hops
  rw [List.map_map] at hinsns'
  obtain ⟨r, post, -, rfl⟩ := hq.eq
  obtain ⟨r', post', -, rfl⟩ := hq'.eq
  have hrun : ∀ {σ : Type} (delegate delegate' : Delegate σ) (s : σ),
      (∀ start registers files s,
        delegate ⟨(u.withProgram (encodeInsns is)).loaded p r, start, registers, files⟩ s =
          delegate' ⟨(u.withProgram (encodeInsns ((knownOps is).map .known))).loaded p r',
            start, registers, files⟩ s) →
      ((u.withProgram (encodeInsns is)).loaded p r).run delegate s =
        ((u.withProgram (encodeInsns ((knownOps is).map .known))).loaded p r').run delegate' s := by
    intro σ delegate delegate' s h
    rw [run_eq_executeAll, run_eq_executeAll, hinsns, hinsns', executeAll_knownOps]
    exact congrArg _ (executeAll_withReader _ _ h _ _ s)
  refine ⟨fun receive s => ?_, fun currentDir addr => ?_⟩
  · rw [hrun (rowsDelegate receive) (rowsDelegate receive) s fun _ _ _ _ => rfl]
  · rw [LinenoProgram.getSourceLine, LinenoProgram.getSourceLine,
      hrun (sourceLineDelegate currentDir addr) (sourceLineDelegate currentDir addr) none
        fun _ _ _ _ => rfl]

/-! ### A program that is misread -/

/-- Code from 4096 on, up to 2 ^ 40. -/
def longCode : List LineOp :=
  [.setAddress (.byte 9) 4096, .special 255, .setAddress (.byte 9) (2 ^ 40), .endSequence (.byte 1)]

/-- A header with a table, and nothing else that matters. -/
def plainUnit (ot : OpcodeTable) (program : List UInt8) : LineUnit where
  is64 := false
  version := 2
  minimumInstructionLength := 1
  maximumOperations := 1
  defaultIsStmt := 1
  lineBase := 0xfb
  lineRange := 14
  opcodeBase := ot.base
  opcodeLengths := ot.lengths
  directories := []
  files := []
  program := program
  two_le := minLinenoVersion_le_two
  le_four := two_le_maxLinenoVersion
  length_opcodeLengths := ot.length_lengths
  directories_named := noDirectories_named
  files_named := noFiles_named

theorem plainUnit_fits (ot : OpcodeTable) {program : List UInt8} (h : program.length ≤ 65536) :
    (plainUnit ot program).Fits := by
  have hsize := (plainUnit ot program).length_contents
  have hbase := ot.base.toNat_lt
  have hlengths := ot.length_lengths
  have htables : (plainUnit ot program).tables.length = 7 + ot.lengths.length := by
    simp [LineUnit.tables, plainUnit, encodeDirectories, encodeFiles]
    omega
  show (plainUnit ot program).contents.length < 0xfffffff0
  rw [hsize, htables]
  show 2 + 4 + (7 + ot.lengths.length) + program.length < _
  omega

/-- The unit can be read. -/
theorem plainUnit_loads (ot : OpcodeTable) (program : List UInt8) (h : program.length ≤ 65536) :
    ∃ q, (plainUnit ot program).Loads { compilationDirectory := none } q := by
  have hfits := plainUnit_fits ot h
  have hlt : (plainUnit ot program).encode.length < 2 ^ 64 := by
    have hlen : (plainUnit ot program).contents.length < 0xfffffff0 := hfits
    rw [LineUnit.encode, List.length_append]
    show (Bytes.leBytes 4 _).length + _ < _
    rw [Bytes.length_leBytes]
    omega
  have hat := (Reader.at_ofBuffer 0 (plainUnit ot program).encode
    (by rwa [Nat.zero_add])).append_nil
  exact ⟨_, hfits, _, [], _, hat, (plainUnit ot program).readHeader_lineUnit hfits _ hat⟩

theorem longCode_readable (base : UInt8) : ∀ op ∈ longCode, op.Readable base := by
  intro op hop
  simp only [longCode, List.mem_cons, List.not_mem_nil, or_false] at hop
  rcases hop with rfl | rfl | rfl | rfl
  · exact (by decide : 4096 < 2 ^ 64)
  · exact ⟨by decide, Nat.le_of_lt_succ base.toNat_lt⟩
  · exact (by decide : 2 ^ 40 < 2 ^ 64)
  · trivial

/-- The rows of the code are those of its first and its last address. -/
theorem pairs_longCode (ot : OpcodeTable) (program : List UInt8) (p : LinenoProgram) (r : Reader) :
    ∃ row row', pairs (table ((plainUnit ot program).loaded p r) longCode) = [(row, row')] ∧
      row.registers.address ≤ 4351 ∧ row'.registers.address = 2 ^ 40 := by
  refine ⟨_, _, rfl, ?_, rfl⟩
  show (4096 + 1 * ((0 + (255 - ot.base.toNat) / 14) / 1)) % 2 ^ 64 ≤ 4351
  omega

/-- The last address of the code has a source line. -/
theorem getSourceLine_longCode {ot : OpcodeTable} {p q : LinenoProgram}
    (h : (plainUnit ot (encodeOps longCode)).Loads p q) :
    q.getSourceLine [] (2 ^ 40 - 1) ≠ .ok none := by
  obtain ⟨r, post, hr, rfl⟩ := h.eq
  have hops : HasOps ((plainUnit ot (encodeOps longCode)).loaded p r) longCode := by
    refine (plainUnit ot (encodeOps longCode)).hasOps hr rfl ?_
    intro op hop
    have hread := longCode_readable ot.base op hop
    simp only [longCode, List.mem_cons, List.not_mem_nil, or_false] at hop
    rcases hop with rfl | rfl | rfl | rfl
    · exact ⟨⟨by decide, by decide⟩, hread⟩
    · exact hread
    · exact ⟨⟨by decide, by decide⟩, hread⟩
    · exact ⟨by decide, by decide⟩
  have hrange : 1 ≤ ((plainUnit ot (encodeOps longCode)).loaded p r).lineRange :=
    (by decide : (1 : UInt8) ≤ 14)
  obtain ⟨row, row', hpairs, hlo, hhi⟩ := pairs_longCode ot (encodeOps longCode) p r
  have hcovers : (rangeOf ((plainUnit ot (encodeOps longCode)).loaded p r) (row, row')).contains
      (2 ^ 40 - 1) 0 = true := by
    have hmem : (row, row') ∈
        pairs (table ((plainUnit ot (encodeOps longCode)).loaded p r) longCode) := by
      rw [hpairs]
      exact .head _
    refine (covers_iff_contains rfl hmem _).mpr ⟨?_, ?_⟩
    · show row.registers.address ≤ _
      omega
    · show _ < row'.registers.address
      omega
  rw [getSourceLine_eq rfl hrange hops, hpairs]
  simp only [List.find?_cons, hcovers]
  cases LinenoProgram.getAbsoluteFilename _ _ _ _ with
  | error c => simp [Except.map]
  | ok f => simp [Except.map]

/-- An extended opcode that is not known ends the program. -/
theorem insns_unknownExtended {base : UInt8} {r : Reader} (n : Nat) {len : Leb} {code : Nat}
    {t : List UInt8} (hlt : code < 256) (hcode : ExtendedOpcode.ofCode code = none)
    (hr : r.At (Bytes.leBytes 1 0 ++ (len.bytes ++ (Bytes.leBytes 1 code ++ t)))) :
    insns base (n + 1) r = ([], some .errBadOpcode) := by
  have h₁ := hr.setP
  have h₂ := h₁.setP
  have hdec : decode base 0 (r.setP (r.p + (Bytes.leBytes 1 0).length)) = .error .errBadOpcode := by
    rw [decode, if_pos rfl, (Reads.readUleb128_any len).run h₁]
    dsimp only
    rw [(Reads.readU8 hlt).run h₂]
    dsimp only
    rw [hcode]
    rfl
  rw [insns, (Reads.readU8 (by decide)).run hr]
  dsimp only
  rw [hdec]

/-- Operands that are zero, read as an extended opcode. -/
theorem zeros_eq_unknownExtended (n : Nat) :
    ∃ code t, code < 256 ∧ ExtendedOpcode.ofCode code = none ∧
      (List.replicate (n + 1) (Leb.byte 0)).flatMap Leb.bytes ++ encodeOps longCode =
        Bytes.leBytes 1 0 ++ ((Leb.byte 0).bytes ++ (Bytes.leBytes 1 code ++ t)) := by
  -- the length of the first instruction is read as its opcode, or another zero is
  rcases n with - | - | n
  · exact ⟨9, _, by decide, by decide, rfl⟩
  · exact ⟨0, _, by decide, by decide, rfl⟩
  · exact ⟨0, _, by decide, by decide, rfl⟩

/-- A program that ends in an opcode that cannot be read, with no known instruction before it. -/
theorem getSourceLine_misread {q : LinenoProgram} {is : List Insn}
    (h : q.instructions = (is, some .errBadOpcode)) (his : ∀ i ∈ is, i = .unknown)
    (currentDir : Filename) (addr : Nat) : q.getSourceLine currentDir addr = .ok none := by
  have hall : ∀ (rs : RunState) (s : Option SourceLine), rs.running = true →
      executeAll q (sourceLineDelegate currentDir addr) (some .errBadOpcode) is rs s =
        .error (.returned .errBadOpcode s) := by
    intro rs s hrun
    clear h
    induction is with
    | nil =>
        rw [executeAll, if_pos hrun]
        rfl
    | cons i is ih =>
        rw [his i (.head _), executeAll_unknown]
        exact ih fun j hj => his j (.tail _ hj)
  rw [LinenoProgram.getSourceLine, run_eq_executeAll, h, hall _ _ rfl]
  rfl

/-- An instruction with the opcode, whose operands are zero. -/
def Opcode.zeros (ot : OpcodeTable) : Opcode → LineInsn
  | standard code => .unknownStandard code (List.replicate (ot.operands code) (.byte 0))
  | extended code => .unknownExtended (.byte 1) code []

theorem Opcode.zeros_written {ot : OpcodeTable} {opcodes : Set Opcode} {o : Opcode}
    (ho : o ∈ opcodes) (hunknown : o.Unknown ot) : (o.zeros ot).Written ot opcodes := by
  cases o with
  | standard code => exact ⟨ho, hunknown, List.length_replicate⟩
  | extended code => exact ⟨ho, hunknown, rfl⟩

theorem Opcode.length_encode_zeros (ot : OpcodeTable) (o : Opcode) :
    (o.zeros ot).encode.length ≤ 256 := by
  cases o with
  | standard code =>
      have hlt : ot.operands code < 256 := UInt8.toNat_lt _
      simp only [zeros, LineInsn.encode, List.length_append, Bytes.length_leBytes,
        List.length_flatMap, List.map_replicate, List.sum_replicate_nat, Leb.length_bytes]
      show 1 + ot.operands code * 1 ≤ 256
      omega
  | extended code => exact (by decide : 3 ≤ 256)

/-- The opcode in front of the code: none of the code is read. -/
theorem insns_zeros {ot : OpcodeTable} {o : Opcode} (hunknown : o.Unknown ot)
    (hbare : ¬ o.Bare ot) {n : Nat} {r : Reader}
    (hr : r.At ((o.zeros ot).encode ++ encodeOps longCode)) :
    ∃ is, insns ot.base (n + 2) r = (is, some .errBadOpcode) ∧ ∀ i ∈ is, i = .unknown := by
  cases o with
  | standard code =>
      obtain ⟨m, hm⟩ := Nat.exists_eq_add_one_of_ne_zero hbare
      obtain ⟨code', t, hlt, hnone, heq⟩ := zeros_eq_unknownExtended m
      rw [Opcode.zeros, LineInsn.encode, hm, List.append_assoc, heq] at hr
      obtain ⟨r', hat, hinsns⟩ := insns_of_decodes (n + 1)
        (decodes_unknownStandard hunknown.1 hunknown.2 hr)
      rw [insns_unknownExtended n hlt hnone hat] at hinsns
      exact ⟨_, hinsns, fun i hi => List.mem_singleton.mp hi⟩
  | extended code =>
      rw [Opcode.zeros, LineInsn.encode, List.append_assoc, List.append_assoc,
        List.append_assoc] at hr
      exact ⟨[], insns_unknownExtended (n + 1) hunknown.1 hunknown.2 hr,
        fun i hi => absurd hi List.not_mem_nil⟩

theorem getSourceLine_zeros {ot : OpcodeTable} {o : Opcode} (hunknown : o.Unknown ot)
    (hbare : ¬ o.Bare ot) {p q : LinenoProgram}
    (h : (plainUnit ot ((o.zeros ot).encode ++ encodeOps longCode)).Loads p q)
    (currentDir : Filename) (addr : Nat) : q.getSourceLine currentDir addr = .ok none := by
  obtain ⟨r, post, hr, rfl⟩ := h.eq
  have hat := (plainUnit ot ((o.zeros ot).encode ++ encodeOps longCode)).at_program p hr
  have hlong : (encodeOps longCode).length = 26 := by decide
  have hlen := congrArg List.length hat.rest_eq
  rw [show LineUnit.program _ = (o.zeros ot).encode ++ encodeOps longCode from rfl,
    List.length_append, hlong] at hlen
  obtain ⟨is, hinsns, his⟩ :=
    insns_zeros (n := (o.zeros ot).encode.length + 25) hunknown hbare hat
  refine getSourceLine_misread ?_ his currentDir addr
  rw [LinenoProgram.instructions, hlen]
  exact hinsns

/-- An opcode that is not a standard one without operands cannot be inserted in front of the
code. -/
theorem not_skips {ot : OpcodeTable} {opcodes : Set Opcode} {o : Opcode} (ho : o ∈ opcodes)
    (hunknown : o.Unknown ot) (hbare : ¬ o.Bare ot) : ¬ Skips ot opcodes := by
  intro hskips
  have hknown : knownOps (o.zeros ot :: longCode.map .known) = longCode := by
    cases o <;> rfl
  have hencode : encodeInsns (o.zeros ot :: longCode.map .known) =
      (o.zeros ot).encode ++ encodeOps longCode := by
    rw [← encodeInsns_known]
    rfl
  have hwritten : ∀ i ∈ o.zeros ot :: longCode.map .known, i.Written ot opcodes := by
    intro i hi
    rcases List.mem_cons.mp hi with rfl | hi
    · exact Opcode.zeros_written ho hunknown
    · obtain ⟨op, hop, rfl⟩ := List.mem_map.mp hi
      exact longCode_readable ot.base op hop
  have hlong : (encodeOps longCode).length ≤ 65280 := by decide
  have hzeros := o.length_encode_zeros ot
  obtain ⟨q, hq⟩ := plainUnit_loads ot ((o.zeros ot).encode ++ encodeOps longCode)
    (by rw [List.length_append]; omega)
  obtain ⟨q', hq'⟩ := plainUnit_loads ot (encodeOps longCode) (by omega)
  have halike := hskips (plainUnit ot []) rfl _ hwritten _ q q' (hencode ▸ hq) (hknown.symm ▸ hq')
  refine getSourceLine_longCode hq' ?_
  rw [← halike.lines, getSourceLine_zeros hunknown hbare hq]

/-- **Unknown opcodes.**  For every table of opcodes and every set of opcodes that are not known,
instructions with these can be inserted at any boundary of every program with that table, and
neither the ranges that `run` reports nor the lines of `get_source_line` change, exactly if each of
them is a standard opcode that is declared without operands. -/
theorem skips_unknown_iff (ot : OpcodeTable) (opcodes : Set Opcode) :
    Skips ot opcodes ↔ ∀ o ∈ opcodes, o.Unknown ot → o.Bare ot := by
  constructor
  · intro hskips o ho hunknown
    by_contra hbare
    exact not_skips ho hunknown hbare hskips
  · exact skips_of_bare

/-- A table with one opcode more than is known, which has one operand. -/
def fourteenOpcodes : OpcodeTable where
  base := 14
  lengths := [0, 1, 1, 1, 1, 0, 0, 0, 1, 0, 0, 1, 1]
  length_lengths := rfl

/-- The operand of opcode 13 is taken for an opcode. -/
theorem unknown_operand_misread : ¬ ∀ (ot : OpcodeTable) (opcodes : Set Opcode),
    Skips ot opcodes := by
  intro hall
  have hunknown : (Opcode.standard 13).Unknown fourteenOpcodes :=
    ⟨Nat.le_refl 13, (by decide : 13 < 14)⟩
  have hbare : ¬ (Opcode.standard 13).Bare fourteenOpcodes := (by decide : ¬ 1 = 0)
  exact not_skips (Set.mem_singleton _) hunknown hbare (hall fourteenOpcodes {.standard 13})

end NovaProva.Dwarf
