import NovaProva.Dwarf.Instructions

/-!
# Dwarf — Reported ranges

What a run reports.  Instructions whose divisors are not zero append rows (`insnRows`), and `run`
gives the delegate the consecutive rows of the same sequence, in order, until it stops
(`run_eq_reported`); with `get_source_line`, the first range that contains the address stops it.
-/

namespace NovaProva.Dwarf

/-! ### Rows -/

/-- A row, with the files that are defined up to it. -/
structure Row where
  registers : Registers
  files : List FileTableEntry

/-- The consecutive rows of the same sequence. -/
def pairs (rs : List Row) : List (Row × Row) :=
  (rs.zip rs.tail).filter fun q => !q.1.registers.endSequence

/-- What a delegate is shown of a pair of rows. -/
def rangeOf (p : LinenoProgram) (q : Row × Row) : LinenoRange where
  program := p
  start := q.1.registers
  registers := q.2.registers
  additionalFiles := q.2.files

/-- A delegate is given ranges until it stops. -/
def feed {σ : Type} (delegate : Delegate σ) : List LinenoRange → σ →
    Except Crash (LinenoStatus × σ)
  | [],              s => .ok (.success, s)
  | range :: ranges, s =>
      match delegate range s with
      | .error c         => .error c
      | .ok (true, s')   => feed delegate ranges s'
      | .ok (false, s')  => .ok (.errHaltedByDelegate, s')

/-- The pairs still to come if `last` is the row before, of the same sequence. -/
def pairsFrom : Option Row → List Row → List (Row × Row)
  | _,    []        => []
  | last, row :: rs =>
      last.toList.map (·, row) ++
        pairsFrom (if row.registers.endSequence then none else some row) rs

theorem pairs_cons_cons (l row : Row) (rs : List Row) :
    pairs (l :: row :: rs) =
      (if l.registers.endSequence then [] else [(l, row)]) ++ pairs (row :: rs) := by
  rw [pairs, List.tail_cons, List.zip_cons_cons, List.filter_cons]
  cases l.registers.endSequence <;> rfl

theorem pairs_of_endSequence {l : Row} (h : l.registers.endSequence = true) (rs : List Row) :
    pairs (l :: rs) = pairs rs := by
  cases rs with
  | nil => rfl
  | cons row rs =>
      rw [pairs_cons_cons, if_pos h]
      rfl

theorem pairsFrom_eq_pairs (rs : List Row) :
    pairsFrom none rs = pairs rs ∧
      ∀ l : Row, l.registers.endSequence = false → pairsFrom (some l) rs = pairs (l :: rs) := by
  induction rs with
  | nil => exact ⟨rfl, fun l _ => rfl⟩
  | cons row rs ih =>
      have hrest : pairsFrom (if row.registers.endSequence then none else some row) rs =
          pairs (row :: rs) := by
        cases hend : row.registers.endSequence with
        | true =>
            rw [pairs_of_endSequence hend]
            exact ih.1
        | false => exact ih.2 row hend
      refine ⟨?_, fun l hl => ?_⟩
      · rw [pairsFrom, hrest]
        rfl
      · rw [pairsFrom, hrest, pairs_cons_cons, if_neg (by simp [hl])]
        rfl

theorem mem_of_mem_pairs {q : Row × Row} {rs : List Row} (h : q ∈ pairs rs) : q.1 ∈ rs :=
  (List.of_mem_zip (List.mem_of_mem_filter h)).1

/-! ### The rows of instructions -/

namespace Insn

/-- The instructions that divide by a number of the header, where that is zero. -/
def DividesByZero (p : LinenoProgram) : Insn → Prop
  | special _ | constAddPc => p.lineRange = 0 ∨ p.maximumOperationsPerInstruction = 0
  | advancePc _ => p.maximumOperationsPerInstruction = 0
  | _ => False

variable (p : LinenoProgram)

/-- The registers behind an instruction that does not divide by zero, up to the row it copies if it
does. -/
def apply (i : Insn) (regs : Registers) : Registers := (i.regs p regs).toOption.getD regs

/-- The registers behind an instruction. -/
def next (i : Insn) (regs : Registers) : Registers :=
  match i with
  | special _ | copy => LinenoProgram.clearFlags (i.apply p regs)
  | endSequence => p.resetRegisters
  | _ => i.apply p regs

variable {p}

theorem regs_of_dividesByZero {i : Insn} (h : i.DividesByZero p) (regs : Registers) :
    i.regs p regs = .error .divisionByZero := by
  cases i with
  | special opcode =>
      rw [Insn.regs, LinenoProgram.specialOpcodeLineAdvance,
        LinenoProgram.specialOpcodeOperationAdvance]
      split
      · rfl
      · exact if_pos (h.resolve_left ‹_›)
  | constAddPc =>
      rw [Insn.regs, LinenoProgram.specialOpcodeOperationAdvance]
      split
      · rfl
      · exact if_pos (h.resolve_left ‹_›)
  | advancePc n => exact if_pos h
  | _ => exact absurd h id

theorem regs_of_not_dividesByZero {i : Insn} (h : ¬ i.DividesByZero p) (regs : Registers) :
    i.regs p regs = .ok (i.apply p regs) := by
  have hok : ∃ regs', i.regs p regs = .ok regs' := by
    cases i with
    | special opcode =>
        obtain ⟨hrange, hmax⟩ := not_or.mp h
        rw [Insn.regs, LinenoProgram.specialOpcodeLineAdvance,
          LinenoProgram.specialOpcodeOperationAdvance, if_neg hrange, if_neg hrange]
        exact ⟨_, if_neg hmax⟩
    | constAddPc =>
        obtain ⟨hrange, hmax⟩ := not_or.mp h
        rw [Insn.regs, LinenoProgram.specialOpcodeOperationAdvance, if_neg hrange]
        exact ⟨_, if_neg hmax⟩
    | advancePc n => exact ⟨_, if_neg h⟩
    | _ => exact ⟨_, rfl⟩
  obtain ⟨regs', hregs⟩ := hok
  rw [Insn.apply, hregs]
  rfl

theorem files_of_copies {i : Insn} (h : i.copies = true) : i.files = [] := by
  cases i <;> first | rfl | cases h

theorem next_of_not_copies {i : Insn} (h : i.copies = false) (regs : Registers) :
    i.next p regs = i.apply p regs := by
  cases i <;> first | rfl | cases h

end Insn

/-- The rows that instructions append, from `regs` and the files defined so far. -/
def insnRows (p : LinenoProgram) : Registers → List FileTableEntry → List Insn → List Row
  | _,    _,     []      => []
  | regs, files, i :: is =>
      (if i.copies then [{ registers := i.apply p regs, files := files }] else []) ++
        insnRows p (i.next p regs) (files ++ i.files) is

/-- The ranges of a program. -/
def LinenoProgram.ranges (p : LinenoProgram) : List LinenoRange :=
  (pairs (insnRows p p.resetRegisters [] p.instructions.1)).map (rangeOf p)

/-! ### Running -/

section
variable {σ : Type} {p : LinenoProgram} {delegate : Delegate σ}

/-- The state behind an instruction whose row is copied. -/
def Insn.copied (p : LinenoProgram) (i : Insn) (rs : RunState) : RunState :=
  { LinenoProgram.copyRow { rs with registers := i.apply p rs.registers } with
    registers := i.next p rs.registers }

theorem Insn.finish_copyRow {i : Insn} (h : i.copies = true) (rs : RunState) :
    i.finish p (LinenoProgram.copyRow { rs with registers := i.apply p rs.registers }) =
      i.copied p rs := by
  cases i with
  | special | copy =>
      rw [Insn.copied, LinenoProgram.copyRow]
      split <;> rfl
  | endSequence => rfl
  | _ => cases h

theorem execute_of_not_copies {i : Insn} (h : ¬ i.DividesByZero p) (hcopies : i.copies = false)
    (rs : RunState) (s : σ) :
    i.execute p delegate rs s = .ok ({ rs with
      registers := i.next p rs.registers
      additionalFiles := rs.additionalFiles ++ i.files }, s) := by
  rw [Insn.execute, Insn.regs_of_not_dividesByZero h, Insn.next_of_not_copies hcopies]
  dsimp only
  rw [hcopies]
  rfl

/-- The first row of a sequence is reported with the next one only. -/
theorem execute_first {i : Insn} (h : ¬ i.DividesByZero p) (hcopies : i.copies = true)
    {rs : RunState} (hstart : rs.haveStart = false) (s : σ) :
    i.execute p delegate rs s = .ok (i.copied p rs, s) := by
  rw [Insn.execute, Insn.regs_of_not_dividesByZero h]
  dsimp only
  rw [if_pos hcopies, LinenoProgram.copy, if_neg (by simp [hstart]), ← Insn.finish_copyRow hcopies]
  rfl

/-- Behind one, the range is reported, and the delegate says whether to go on. -/
theorem execute_behind {i : Insn} (h : ¬ i.DividesByZero p) (hcopies : i.copies = true)
    {rs : RunState} (hstart : rs.haveStart = true) (s : σ) :
    i.execute p delegate rs s =
      (delegate (p.range { rs with registers := i.apply p rs.registers }) s).map fun q =>
        (if q.1 then i.copied p rs else
          i.finish p { rs with registers := i.apply p rs.registers, running := false }, q.2) := by
  rw [Insn.execute, Insn.regs_of_not_dividesByZero h]
  dsimp only
  rw [if_pos hcopies, LinenoProgram.copy, if_pos hstart, ← Insn.finish_copyRow hcopies]
  rcases delegate (p.range { rs with registers := i.apply p rs.registers }) s with c | ⟨- | -, s'⟩
  · rfl
  · rfl
  · rfl

theorem execute_dividesByZero {i : Insn} (h : i.DividesByZero p) (rs : RunState) (s : σ) :
    i.execute p delegate rs s = .error .divisionByZero := by
  rw [Insn.execute, Insn.regs_of_dividesByZero h]

/-- The state of a run is behind the row `last` of a sequence that has not ended, or, with `none`,
at the start of one. -/
structure BehindRow (rs : RunState) (last : Option Row) : Prop where
  running : rs.running = true
  haveStart : rs.haveStart = last.isSome
  start : ∀ l ∈ last, rs.start = l.registers

theorem behind_copied {last : Option Row} {rs : RunState} (h : BehindRow rs last) (i : Insn)
    (files : List FileTableEntry) :
    BehindRow (i.copied p rs) (if (i.apply p rs.registers).endSequence then none else
      some { registers := i.apply p rs.registers, files := files }) := by
  rw [Insn.copied, LinenoProgram.copyRow]
  cases hend : (i.apply p rs.registers).endSequence with
  | true =>
      refine ⟨?_, ?_, fun l hl => absurd hl (Option.not_mem_none l)⟩
      · simp [h.running]
      · simp
  | false =>
      refine ⟨?_, ?_, ?_⟩
      · simp [h.running]
      · simp
      · simp

theorem additionalFiles_copied (i : Insn) (rs : RunState) :
    (i.copied p rs).additionalFiles = rs.additionalFiles := by
  rw [Insn.copied, LinenoProgram.copyRow]
  split <;> rfl

/-- The status of a run that ends like `ending` if nothing stops it. -/
def LinenoStatus.orElse (ending : Option LinenoStatus) (status : LinenoStatus) : LinenoStatus :=
  if status = .success then ending.getD .success else status

/-- The instructions report the pairs of the rows that they append. -/
theorem executeAll_feed {ending : Option LinenoStatus} {is : List Insn}
    (his : ∀ i ∈ is, ¬ i.DividesByZero p) {rs : RunState} {last : Option Row}
    (hrs : BehindRow rs last) (s : σ) :
    LinenoProgram.runResult (executeAll p delegate ending is rs s) =
      (feed delegate ((pairsFrom last (insnRows p rs.registers rs.additionalFiles is)).map
        (rangeOf p)) s).map fun q => (q.1.orElse ending, q.2) := by
  induction is generalizing rs last s with
  | nil =>
      rw [executeAll, if_pos hrs.running]
      cases ending with
      | none =>
          show Except.ok (if rs.running then _ else _, s) = _
          rw [if_pos hrs.running]
          rfl
      | some status => rfl
  | cons i is ih =>
      have hi := his i (.head _)
      have hrest : ∀ j ∈ is, ¬ j.DividesByZero p := fun j hj => his j (.tail _ hj)
      rw [executeAll, if_pos hrs.running, insnRows]
      cases hcopies : i.copies with
      | false =>
          have hbehind : BehindRow { rs with
              registers := i.next p rs.registers
              additionalFiles := rs.additionalFiles ++ i.files } last :=
            ⟨hrs.running, hrs.haveStart, hrs.start⟩
          rw [execute_of_not_copies hi hcopies]
          exact ih hrest hbehind s
      | true =>
          have hnext := fun s' => ih hrest (behind_copied (p := p) hrs i rs.additionalFiles) s'
          rw [additionalFiles_copied] at hnext
          rw [if_pos rfl, Insn.files_of_copies hcopies, List.append_nil, List.singleton_append,
            pairsFrom, List.map_append]
          cases last with
          | none =>
              rw [execute_first hi hcopies hrs.haveStart]
              exact hnext s
          | some l =>
              have hreport : p.range { rs with registers := i.apply p rs.registers } =
                  rangeOf p (l, { registers := i.apply p rs.registers,
                                  files := rs.additionalFiles }) := by
                rw [LinenoProgram.range, rangeOf, hrs.start l rfl]
              rw [execute_behind hi hcopies hrs.haveStart, hreport]
              simp only [Option.toList_some, List.map_cons, List.map_nil, List.singleton_append,
                feed]
              rcases delegate (rangeOf p _) s with c | ⟨- | -, s'⟩
              · rfl
              · have hstop : (i.finish p { rs with
                    registers := i.apply p rs.registers
                    running := false }).running = false := by
                  cases i <;> rfl
                show LinenoProgram.runResult (executeAll p delegate ending is (i.finish p { rs with
                  registers := i.apply p rs.registers
                  running := false }) s') = _
                rw [executeAll_not_running hstop, LinenoProgram.runResult, hstop]
                rfl
              · exact hnext s'

/-- **What is reported.**  If no instruction divides by zero, `run` gives the delegate the ranges of
the program in order, until it stops. -/
theorem run_eq_reported (h : ∀ i ∈ p.instructions.1, ¬ i.DividesByZero p)
    (delegate : Delegate σ) (s : σ) :
    p.run delegate s =
      (feed delegate p.ranges s).map fun q => (q.1.orElse p.instructions.2, q.2) := by
  have hstart : BehindRow { registers := p.resetRegisters } none :=
    ⟨rfl, rfl, fun l hl => absurd hl (Option.not_mem_none l)⟩
  rw [run_eq_executeAll, executeAll_feed h hstart, (pairsFrom_eq_pairs _).1]
  rfl

/-! ### Source lines -/

/-- The first range that contains the address stops the run of `get_source_line`. -/
theorem feed_sourceLineDelegate (currentDir : Filename) (addr : Nat) (ranges : List LinenoRange) :
    feed (sourceLineDelegate currentDir addr) ranges none =
      match ranges.find? (·.contains addr 0) with
      | none       => .ok (.success, none)
      | some range => (range.getAbsoluteFilename currentDir).map fun f =>
          (.errHaltedByDelegate, some
            { filename := f, line := range.start.line, column := range.start.column }) := by
  induction ranges with
  | nil => rfl
  | cons range ranges ih =>
      rw [feed, sourceLineDelegate]
      rw [List.find?_cons]
      cases hc : range.contains addr 0 with
      | true =>
          rw [if_pos rfl]
          dsimp only
          rcases range.getAbsoluteFilename currentDir with c | f <;> rfl
      | false =>
          rw [if_neg (by simp)]
          exact ih

/-- **`get_source_line`** asks for the file of the first range that contains the address. -/
theorem getSourceLine_reported (h : ∀ i ∈ p.instructions.1, ¬ i.DividesByZero p)
    (currentDir : Filename) (addr : Nat) :
    p.getSourceLine currentDir addr =
      match p.ranges.find? (·.contains addr 0) with
      | none       => .ok none
      | some range => (range.getAbsoluteFilename currentDir).map fun f => some
          { filename := f, line := range.start.line, column := range.start.column } := by
  rw [LinenoProgram.getSourceLine, run_eq_reported h, feed_sourceLineDelegate]
  cases p.ranges.find? (·.contains addr 0) with
  | none => exact congrArg Except.ok (ite_self _)
  | some range =>
      dsimp only
      cases range.getAbsoluteFilename currentDir with
      | error c => rfl
      | ok f    => rfl

theorem directory_ok_iff (e : FileTableEntry) :
    (∃ d, p.directory e = .ok d) ↔ e.directoryIndex ≤ p.includeDirectories.length := by
  unfold LinenoProgram.directory
  split
  · exact iff_of_true ⟨_, rfl⟩ (by omega)
  · split
    next d hd =>
      obtain ⟨hlt, -⟩ := List.getElem?_eq_some_iff.mp hd
      exact iff_of_true ⟨_, rfl⟩ (by omega)
    next hd =>
      have hle := List.getElem?_eq_none_iff.mp hd
      exact iff_of_false nofun (by omega)

end

end NovaProva.Dwarf
