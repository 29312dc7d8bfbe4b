import NovaProva.Dwarf.Rows
import NovaProva.Lib.Segments

/-!
# Dwarf — Instruction bundles

Where an instruction holds several operations, a row stands at an address and an operation of the
instruction there, and so do the ends of a range: its positions are pairs.  `range_t::contains` goes
on up to the address of the second row only, and loses the operations before the second row in its
own instruction; `fixed_advance_pc` leaves the operation index where it is, and `advance_pc` counts
in 32 bits.

* `delivered`: the ranges that `run` gives a delegate which never stops it.
* `drifts`: where the rows come to stand with that counting; `rowsInStep_iff`: when that is where
  the standard has them.
* `covers_once_iff`: when the ranges of each sequence tell its positions apart.
-/

namespace NovaProva.Dwarf

/-! ### Positions -/

/-- An address, and an operation of the instruction there. -/
abbrev Pos := Nat ×ₗ Nat

/-- Where the registers stand: an address, and an operation of the bundle there. -/
def Registers.pos (regs : Registers) : Pos := toLex (regs.address, regs.opIndex)

/-- `contains` is what a segment holds. -/
theorem contains_eq_holds (range : LinenoRange) (a i : Nat) :
    range.contains a i = holds (toLex (a, i)) (range.start.pos, range.registers.pos) := by
  rw [Bool.eq_iff_iff, holds_iff, LinenoRange.contains, Registers.pos, Registers.pos,
    Prod.Lex.toLex_le_toLex]
  simp only [ofLex_toLex]
  split
  next h => exact iff_of_false (by simp) (by omega)
  next h =>
    split
    next h' => exact iff_of_false (by simp) (by omega)
    next h' => exact iff_of_true rfl (by omega)

/-- A delegate that keeps the ranges it is given. -/
def recorder : Delegate (List LinenoRange) := fun range seen => .ok (true, seen ++ [range])

/-- The ranges that `run` delivers to a delegate that never stops it. -/
def LinenoProgram.delivered (p : LinenoProgram) : List LinenoRange :=
  match p.run recorder [] with
  | .ok (_, ranges) => ranges
  | .error _        => []

/-- The recorder keeps every range. -/
theorem feed_recorder (ranges seen : List LinenoRange) :
    feed recorder ranges seen = .ok (.success, seen ++ ranges) := by
  induction ranges generalizing seen with
  | nil => rw [feed, List.append_nil]
  | cons range ranges ih =>
      rw [feed, recorder]
      dsimp only
      rw [ih, List.append_assoc, List.singleton_append]

/-- A run that does not divide by zero delivers all ranges. -/
theorem delivered_eq_ranges {p : LinenoProgram}
    (h : ∀ i ∈ p.instructions.1, ¬ i.DividesByZero p) : p.delivered = p.ranges := by
  rw [LinenoProgram.delivered, run_eq_reported h, feed_recorder]
  rfl

/-! ### Sequences -/

/-- The row ends a sequence. -/
def Row.ends (row : Row) : Bool := row.registers.endSequence

/-- The rows of each sequence that has rows before the one that ends it. -/
def sequences (rs : List Row) : List (List Row) := spans Row.ends rs

/-- The ranges of a program, those of each sequence together. -/
def LinenoProgram.deliveredSequences (p : LinenoProgram) : List (List LinenoRange) :=
  chunks (·.registers.endSequence) p.delivered

/-- A row that ends no sequence makes a pair with the next. -/
theorem pairs_of_not_ends {l : Row} (h : l.ends = false) (row : Row) (rs : List Row) :
    pairs (l :: row :: rs) = (l, row) :: pairs (row :: rs) :=
  (pairs_cons_cons l row rs).trans (congrArg (· ++ _) (if_neg (Bool.eq_false_iff.mp h)))

/-- The pairs of the rows of a sequence are consecutive rows of it. -/
theorem chunks_pairs (rs : List Row) :
    chunks (fun q => q.2.ends) (pairs rs) = (sequences rs).map segments := by
  induction rs with
  | nil => rfl
  | cons l rs ih =>
      cases hl : l.ends with
      | true =>
          rw [pairs_of_endSequence hl, ih, sequences, sequences, spans, spans, chunks_of_last _ hl]
          rfl
      | false =>
          rw [sequences, spans, chunks_of_not_last _ hl]
          cases rs with
          | nil => rfl
          | cons row rs =>
              rw [pairs_of_not_ends hl]
              rw [sequences, spans] at ih
              cases hrow : row.ends with
              | true =>
                  rw [chunks_of_last _ hrow] at ih
                  rw [chunks_of_last Row.ends hrow,
                    chunks_of_last (fun q : Row × Row => q.2.ends) (a := (l, row)) hrow, ih]
                  rfl
              | false =>
                  rw [chunks_of_not_last _ hrow] at ih
                  rw [chunks_of_not_last Row.ends hrow,
                    chunks_of_not_last (fun q : Row × Row => q.2.ends) (a := (l, row)) hrow, ih]
                  cases hc : chunks Row.ends rs with
                  | nil => rfl
                  | cons c cs =>
                      have hmem : c ∈ chunks Row.ends rs := hc ▸ List.mem_cons_self
                      obtain ⟨d, ds, rfl⟩ :=
                        List.exists_cons_of_ne_nil (ne_nil_of_mem_chunks hmem)
                      simp

/-- It delivers the ranges of each sequence together. -/
theorem deliveredSequences_eq {p : LinenoProgram}
    (h : ∀ i ∈ p.instructions.1, ¬ i.DividesByZero p) :
    p.deliveredSequences = (sequences (insnRows p p.resetRegisters [] p.instructions.1)).map
      fun s => (segments s).map (rangeOf p) := by
  rw [LinenoProgram.deliveredSequences, delivered_eq_ranges h, LinenoProgram.ranges, chunks_map]
  show (chunks (fun q : Row × Row => q.2.ends) _).map _ = _
  rw [chunks_pairs, List.map_map]
  rfl

/-! ### Counting in 32 bits -/

namespace LineOp

variable (p : LinenoProgram)

/-- An operation advance, counted in 32 bits. -/
def advance32 (n : Nat) (pos : Pos) : Pos :=
  let newOpIndex := ((ofLex pos).2 + n) % 2 ^ 32
  toLex (((ofLex pos).1 + (newOpIndex / p.maximumOperationsPerInstruction.toNat *
      p.minimumInstructionLength.toNat) % 2 ^ 32) % 2 ^ 64,
    newOpIndex % p.maximumOperationsPerInstruction.toNat)

/-- Where an instruction takes a position if advances are counted in 32 bits, and if
`fixed_advance_pc` leaves the operation index where it is. -/
def drift : LineOp → Pos → Pos
  | special opcode, pos => advance32 p (adjusted p opcode / p.lineRange.toNat) pos
  | advancePc l, pos => advance32 p (lebRead l Read.lebStart).vv pos
  | constAddPc, pos => advance32 p (adjusted p 255 / p.lineRange.toNat) pos
  | fixedAdvancePc n, pos => toLex (((ofLex pos).1 + n) % 2 ^ 64, (ofLex pos).2)
  | setAddress _ a, _ => toLex (a, 0)
  | _, pos => pos

/-- The instruction that ends a sequence. -/
def ends : LineOp → Bool
  | endSequence _ => true
  | _ => false

end LineOp

/-- Where the rows that instructions append come to stand so, from a position on, and which of them
end a sequence. -/
def drifts (p : LinenoProgram) : Pos → List LineOp → List (Pos × Bool)
  | _,   []        => []
  | pos, op :: ops =>
      (if op.appends then [(op.drift p pos, op.ends)] else []) ++
        drifts p (if op.ends then toLex (0, 0) else op.drift p pos) ops

section
variable {p : LinenoProgram}

/-- `advance_pc` moves on, in 32 bits. -/
theorem pos_advancePc {regs regs' : Registers} {n : Nat} (h : p.advancePc n regs = .ok regs') :
    regs'.pos = LineOp.advance32 p n regs.pos ∧ regs'.endSequence = regs.endSequence := by
  rw [LinenoProgram.advancePc] at h
  split at h
  · cases h
  · cases h
    exact ⟨rfl, rfl⟩

/-- **One instruction** takes the registers of the machine where it takes their position. -/
theorem pos_apply {op : LineOp} (hop : op.Readable p.opcodeBase)
    (hdiv : ¬ op.asRead.DividesByZero p) (regs : Registers) :
    (op.asRead.apply p regs).pos = op.drift p regs.pos ∧
      (op.asRead.apply p regs).endSequence = (regs.endSequence || op.ends) := by
  have hregs := Insn.regs_of_not_dividesByZero hdiv regs
  cases op with
  | special opcode =>
      have hrange : 1 ≤ p.lineRange := UInt8.pos_iff_ne_zero.mpr fun h => hdiv (.inl h)
      simp only [LineOp.asRead, Insn.regs, lineAdvance_eq hrange hop.2,
        operationAdvance_eq hrange hop.2] at hregs
      obtain ⟨hpos, hend⟩ := pos_advancePc hregs
      exact ⟨hpos, hend.trans (Bool.or_false _).symm⟩
  | constAddPc =>
      have hrange : 1 ≤ p.lineRange := UInt8.pos_iff_ne_zero.mpr fun h => hdiv (.inl h)
      have hbase : p.opcodeBase ≤ 255 := Nat.le_of_lt_succ p.opcodeBase.toNat_lt
      simp only [LineOp.asRead, Insn.regs, operationAdvance_eq hrange hbase] at hregs
      obtain ⟨hpos, hend⟩ := pos_advancePc hregs
      exact ⟨hpos, hend.trans (Bool.or_false _).symm⟩
  | advancePc l =>
      obtain ⟨hpos, hend⟩ := pos_advancePc hregs
      exact ⟨hpos, hend.trans (Bool.or_false _).symm⟩
  | endSequence => exact ⟨rfl, (Bool.or_true _).symm⟩
  | _ => exact ⟨rfl, (Bool.or_false _).symm⟩

/-- **Where an instruction leaves the registers.** -/
theorem pos_next {op : LineOp} (hop : op.Readable p.opcodeBase)
    (hdiv : ¬ op.asRead.DividesByZero p) {regs : Registers} (hend : regs.endSequence = false) :
    (op.asRead.next p regs).pos = (if op.ends then toLex (0, 0) else op.drift p regs.pos) ∧
      (op.asRead.next p regs).endSequence = false := by
  obtain ⟨hpos, happly⟩ := pos_apply hop hdiv regs
  rw [hend] at happly
  cases op with
  | endSequence => exact ⟨rfl, rfl⟩
  | _ => exact ⟨hpos, happly⟩

/-- A row's position, and whether it ends a sequence. -/
def Row.mark (row : Row) : Pos × Bool := (row.registers.pos, row.ends)

/-- The rows of the machine come to stand there. -/
theorem drifts_eq {ops : List LineOp} (hops : ∀ op ∈ ops, op.Readable p.opcodeBase)
    (hdiv : ∀ op ∈ ops, ¬ op.asRead.DividesByZero p) {regs : Registers}
    (hend : regs.endSequence = false) (files : List FileTableEntry) :
    drifts p regs.pos ops = (insnRows p regs files (ops.map LineOp.asRead)).map Row.mark := by
  induction ops generalizing regs files with
  | nil => rfl
  | cons op ops ih =>
      obtain ⟨hpos, happly⟩ := pos_apply (hops op (.head _)) (hdiv op (.head _)) regs
      obtain ⟨hnext, hend'⟩ := pos_next (hops op (.head _)) (hdiv op (.head _)) hend
      have hrest := ih (fun o ho => hops o (.tail _ ho)) (fun o ho => hdiv o (.tail _ ho)) hend'
        (files ++ op.asRead.files)
      rw [hend, Bool.false_or] at happly
      rw [drifts, List.map_cons, insnRows, List.map_append, ← hrest, hnext, asRead_copies]
      cases op.appends with
      | false => rfl
      | true =>
          rw [if_pos rfl, if_pos rfl, ← hpos, ← happly]
          rfl

/-- Only `DW_LNE_end_sequence` ends a sequence. -/
theorem endSequence_apply (op : LineOp) (regs : Registers) :
    (op.apply p regs).endSequence = (regs.endSequence || op.ends) := by
  cases op with
  | endSequence => exact (Bool.or_true _).symm
  | _ => exact (Bool.or_false _).symm

/-- Behind any instruction the sequence goes on, or a new one begins. -/
theorem endSequence_next (op : LineOp) {regs : Registers} (h : regs.endSequence = false) :
    (op.next p regs).endSequence = false := by
  have happly := endSequence_apply (p := p) op regs
  rw [h] at happly
  cases op with
  | endSequence => rfl
  | _ => exact happly

/-- The rows of the standard end the sequences with them. -/
theorem forall₂_rows_drifts (ops : List LineOp) {regs : Registers} (hend : regs.endSequence = false)
    (files : List FileTableEntry) (pos : Pos) :
    List.Forall₂ (fun row d => row.ends = d.2) (rows p regs files ops) (drifts p pos ops) := by
  induction ops generalizing regs files pos with
  | nil => exact .nil
  | cons op ops ih =>
      have happly := endSequence_apply (p := p) op regs
      rw [hend, Bool.false_or] at happly
      have hrest := ih (endSequence_next (p := p) op hend) (files ++ op.defines)
        (if op.ends then toLex (0, 0) else op.drift p pos)
      rw [rows, drifts]
      cases op.appends with
      | false => exact hrest
      | true => exact .cons happly hrest

/-! ### Whole programs -/

/-- Every position of the sequence `s` with an operation below `m` is in exactly one of the ranges,
one that starts at the greatest row not above it. -/
def CoversOnce (m : Nat) (s : List Row) (ranges : List LinenoRange) : Prop :=
  ∀ a i, i < m → (∀ first ∈ s.head?, first.registers.pos ≤ toLex (a, i)) →
    (∀ last ∈ s.getLast?, toLex (a, i) < last.registers.pos) →
      ∃ range, ranges.filter (·.contains a i) = [range] ∧
        IsFloor (s.map (·.registers.pos)) (toLex (a, i)) range.start.pos

/-- The ranges of consecutive rows hold what the segments of their positions do. -/
theorem exists_range_iff_located {s t : List Row} (a i : Nat) :
    (∃ range, ((segments t).map (rangeOf p)).filter (·.contains a i) = [range] ∧
      IsFloor (s.map (·.registers.pos)) (toLex (a, i)) range.start.pos) ↔
    Located (s.map (·.registers.pos)) (t.map (·.registers.pos)) (toLex (a, i)) := by
  have hfun : (fun q => (rangeOf p q).contains a i) = fun q =>
      holds (toLex (a, i)) (Prod.map (·.registers.pos) (·.registers.pos) q) := by
    funext q
    exact contains_eq_holds (rangeOf p q) a i
  rw [Located, segments_map, List.filter_map, List.filter_map]
  simp only [Function.comp_def, hfun, List.map_eq_singleton_iff]
  constructor
  · rintro ⟨range, ⟨q, hq, rfl⟩, hfloor⟩
    exact ⟨_, ⟨q, hq, rfl⟩, hfloor⟩
  · rintro ⟨_, ⟨q, hq, rfl⟩, hfloor⟩
    exact ⟨_, ⟨q, hq, rfl⟩, hfloor⟩

/-- **A sequence is covered once** exactly if its positions are aligned with those of the ranges. -/
theorem coversOnce_iff_aligned {m : Nat} {s t : List Row} (htwo : 2 ≤ s.length)
    (hlen : t.length = s.length) (hs : (s.map (·.registers.pos)).Pairwise (· < ·))
    (hm : ∀ row ∈ s, row.registers.opIndex < m) :
    CoversOnce m s ((segments t).map (rangeOf p)) ↔
      Aligned (s.map (·.registers.pos)) (t.map (·.registers.pos)) := by
  have hm' : ∀ y ∈ s.map (·.registers.pos), (ofLex y).2 < m := by
    intro y hy
    obtain ⟨row, hrow, rfl⟩ := List.mem_map.mp hy
    exact hm row hrow
  rw [← located_iff_aligned (by simpa using htwo) (by simpa using hlen) hs hm', CoversOnce]
  simp only [exists_range_iff_located, List.head?_map, List.getLast?_map, Option.mem_def,
    Option.map_eq_some_iff, forall_exists_index, and_imp, forall_apply_eq_imp_iff₂]
  exact ⟨fun h x => h (ofLex x).1 (ofLex x).2, fun h a i => h (toLex (a, i))⟩

/-- In each sequence the rows, up to the one that ends it, come to stand where the standard has them
if advances are counted in 32 bits and `fixed_advance_pc` leaves the operation index where it is;
behind the first one, they are at the first operation of an instruction; and the row that ends the
sequence is so too and comes to stand no lower, or comes to stand at a greater address. -/
def RowsInStep (p : LinenoProgram) (ops : List LineOp) : Prop :=
  List.Forall₂ (fun s t => Aligned (s.map (·.registers.pos)) (t.map Prod.fst))
    (sequences (table p ops)) (spans Prod.snd (drifts p (toLex (0, 0)) ops))

/-! ### Where nothing is lost -/

namespace LineOp

variable (p)

/-- What an instruction advances by fits 32 bits, and the operation index is 0 where
`fixed_advance_pc` leaves it. -/
def Exact : LineOp → Registers → Prop
  | advancePc l, regs => regs.opIndex + l.toNat < 2 ^ 32 ∧ p.minimumInstructionLength.toNat *
      ((regs.opIndex + l.toNat) / p.maximumOperationsPerInstruction.toNat) < 2 ^ 32
  | fixedAdvancePc _, regs => regs.opIndex = 0
  | _, _ => True

end LineOp

/-- Each instruction is exact where the machine of the standard meets it. -/
def AllExact (p : LinenoProgram) : Registers → List LineOp → Prop
  | _,    []        => True
  | regs, op :: ops => op.Exact p regs ∧ AllExact p (op.next p regs) ops

/-- An advance of 32 bits is the one the standard asks for. -/
theorem advance32_eq {n : Nat} {regs : Registers} (hsum : regs.opIndex + n < 2 ^ 32)
    (hmul : p.minimumInstructionLength.toNat *
      ((regs.opIndex + n) / p.maximumOperationsPerInstruction.toNat) < 2 ^ 32) :
    LineOp.advance32 p n regs.pos = (LineOp.advance p n regs).pos := by
  simp only [LineOp.advance32, LineOp.advance, Registers.pos, ofLex_toLex]
  rw [Nat.mod_eq_of_lt hsum, Nat.mul_comm, Nat.mod_eq_of_lt hmul]

/-- Special opcodes and `const_add_pc` always fit. -/
theorem advance32_adjusted (opcode : UInt8) {regs : Registers}
    (hindex : regs.opIndex < p.maximumOperationsPerInstruction.toNat) :
    LineOp.advance32 p (LineOp.adjusted p opcode / p.lineRange.toNat) regs.pos =
      (LineOp.advance p (LineOp.adjusted p opcode / p.lineRange.toNat) regs).pos := by
  have hle : LineOp.adjusted p opcode / p.lineRange.toNat ≤ 255 :=
    (Nat.div_le_self _ _).trans ((Nat.sub_le _ _).trans (Nat.le_of_lt_succ opcode.toNat_lt))
  have hmax := p.maximumOperationsPerInstruction.toNat_lt
  have hmin := p.minimumInstructionLength.toNat_lt
  have hdiv := Nat.div_le_self (regs.opIndex + LineOp.adjusted p opcode / p.lineRange.toNat)
    p.maximumOperationsPerInstruction.toNat
  have hmul := Nat.mul_le_mul (Nat.le_of_lt_succ hmin) (hdiv.trans (Nat.add_le_add
    (Nat.le_of_lt_succ (hindex.trans hmax)) hle))
  exact advance32_eq (by omega) (by omega)

/-- So is what an instruction adds, if it is exact. -/
theorem drift_eq {op : LineOp} {regs : Registers}
    (hindex : regs.opIndex < p.maximumOperationsPerInstruction.toNat) (h : op.Exact p regs) :
    op.drift p regs.pos = (op.apply p regs).pos := by
  cases op with
  | special opcode => exact advance32_adjusted opcode hindex
  | constAddPc => exact advance32_adjusted 255 hindex
  | advancePc l =>
      obtain ⟨hsum, hmul⟩ := h
      have hread := (lebRead_eq_iff l).mpr (by omega)
      rw [LineOp.drift, hread]
      exact advance32_eq hsum hmul
  | fixedAdvancePc n =>
      have hzero : regs.opIndex = 0 := h
      rw [LineOp.drift, LineOp.apply, Registers.pos, Registers.pos, hzero]
      rfl
  | _ => rfl

/-- The rows then come to stand where the standard has them. -/
theorem drifts_eq_of_exact (hmax : 0 < p.maximumOperationsPerInstruction.toNat)
    {ops : List LineOp} {regs : Registers} (hend : regs.endSequence = false)
    (hindex : regs.opIndex < p.maximumOperationsPerInstruction.toNat)
    (files : List FileTableEntry) (h : AllExact p regs ops) :
    drifts p regs.pos ops = (rows p regs files ops).map Row.mark := by
  induction ops generalizing regs files with
  | nil => rfl
  | cons op ops ih =>
      obtain ⟨hop, hops⟩ := h
      have hdrift := drift_eq hindex hop
      have happly := endSequence_apply (p := p) op regs
      have hrest := ih (endSequence_next op hend) (opIndex_next_lt hmax op hindex)
        (files ++ op.defines) hops
      have hnext : (op.next p regs).pos =
          if op.ends then toLex (0, 0) else op.drift p regs.pos := by
        cases op with
        | endSequence => rfl
        | _ => exact hdrift.symm
      rw [hend, Bool.false_or] at happly
      rw [drifts, rows, List.map_append, ← hrest, hnext]
      cases op.appends with
      | false => rfl
      | true =>
          rw [if_pos rfl, if_pos rfl, hdrift, ← happly]
          rfl

/-- **Where nothing is lost**, the rows are in step exactly if each one behind the first of its
sequence is at the first operation of an instruction. -/
theorem rowsInStep_iff (hmax : 1 ≤ p.maximumOperationsPerInstruction) {ops : List LineOp}
    (h : AllExact p p.resetRegisters ops) :
    RowsInStep p ops ↔
      ∀ s ∈ sequences (table p ops), ∀ row ∈ s.tail, row.registers.opIndex = 0 := by
  have hend : p.resetRegisters.endSequence = false := rfl
  have hzero : p.resetRegisters.opIndex < p.maximumOperationsPerInstruction.toNat := hmax
  have hdrifts : drifts p (toLex (0, 0)) ops = (table p ops).map Row.mark :=
    drifts_eq_of_exact hmax hend hzero [] h
  rw [RowsInStep, hdrifts, spans_map, List.forall₂_map_right_iff]
  show List.Forall₂ _ (sequences (table p ops)) (sequences (table p ops)) ↔ _
  rw [List.forall₂_same]
  refine forall₂_congr fun s hs => ?_
  rw [List.map_map]
  show Aligned (s.map (·.registers.pos)) (s.map (·.registers.pos)) ↔ _
  rw [aligned_self_iff (by simpa using two_le_of_mem_spans hs), ← List.map_tail,
    List.forall_mem_map]
  rfl

/-! ### What is delivered -/

/-- **Bundles.**  Where the rows of each sequence ascend, each position of a sequence is in exactly
one of the ranges that are delivered for it, the one that starts at the greatest row not above,
exactly if the rows are in step. -/
theorem covers_once_iff (p : LinenoProgram) (ops : List LineOp)
    (hmax : 1 ≤ p.maximumOperationsPerInstruction)
    (hdiv : ∀ op ∈ ops, ¬ op.asRead.DividesByZero p) (h : Spells p ops)
    (hsorted : ∀ s ∈ sequences (table p ops), (s.map (·.registers.pos)).Pairwise (· < ·)) :
    List.Forall₂ (CoversOnce p.maximumOperationsPerInstruction.toNat)
      (sequences (table p ops)) p.deliveredSequences ↔ RowsInStep p ops := by
  have hdiv' : ∀ i ∈ p.instructions.1, ¬ i.DividesByZero p := by
    rw [h.instructions]
    intro i hi
    obtain ⟨op, hop, rfl⟩ := List.mem_map.mp hi
    exact hdiv op hop
  have hlt : ∀ s ∈ sequences (table p ops), ∀ row ∈ s,
      row.registers.opIndex < p.maximumOperationsPerInstruction.toNat := by
    intro s hs row hrow
    have hzero : p.resetRegisters.opIndex < p.maximumOperationsPerInstruction.toNat := hmax
    exact opIndex_rows_lt hmax ops hzero row (subset_of_mem_chunks (List.mem_of_mem_filter hs) hrow)
  have hend : p.resetRegisters.endSequence = false := rfl
  have hdrifts : drifts p (toLex (0, 0)) ops =
      (insnRows p p.resetRegisters [] (ops.map LineOp.asRead)).map Row.mark :=
    drifts_eq h.readable hdiv hend []
  have hflags : List.Forall₂ (fun row d => row.ends = d.2) (table p ops)
      (drifts p (toLex (0, 0)) ops) := forall₂_rows_drifts ops hend [] _
  rw [hdrifts, List.forall₂_map_right_iff] at hflags
  have hsame := forall₂_spans (fun _ _ heq => heq) hflags
  rw [deliveredSequences_eq hdiv', h.instructions, List.forall₂_map_right_iff, RowsInStep,
    hdrifts, spans_map, List.forall₂_map_right_iff]
  refine forall₂_congr_of_forall₂ hsame fun s hs t hst => ?_
  rw [coversOnce_iff_aligned (two_le_of_mem_spans hs) hst.length_eq.symm (hsorted s hs) (hlt s hs),
    List.map_map]
  rfl

end

/-! ### Four operations in an instruction -/

/-- Rows at 4096, `n` operations on, and twice as many. -/
def bundleOps (n : Fin 128) : List LineOp :=
  [.setAddress (.byte 9) 4096, .copy, .advancePc (.byte n), .copy, .advancePc (.byte n),
    .endSequence (.byte 1)]

/-- The operands of the twelve standard opcodes. -/
def operandCounts : List UInt8 := [0, 1, 1, 1, 1, 0, 0, 0, 1, 0, 0, 1]

theorem length_operandCounts : operandCounts.length = (13 : UInt8).toNat - 1 := rfl

/-- A program for bundles of four operations. -/
def bundleUnit (n : Fin 128) : LineUnit where
  is64 := false
  version := 4
  minimumInstructionLength := 1
  maximumOperations := 4
  defaultIsStmt := 1
  lineBase := 0xfb
  lineRange := 14
  opcodeBase := 13
  opcodeLengths := operandCounts
  directories := []
  files := []
  program := encodeOps (bundleOps n)
  two_le := minLinenoVersion_le_four
  le_four := four_le_maxLinenoVersion
  length_opcodeLengths := length_operandCounts
  directories_named := noDirectories_named
  files_named := noFiles_named

theorem length_bundleUnit (n : Fin 128) : 0 + (bundleUnit n).encode.length < 2 ^ 64 := by
  revert n
  decide +kernel

/-- A reader at its start. -/
def bundleReader (n : Fin 128) : Reader := .ofBuffer 0 (bundleUnit n).encode (length_bundleUnit n)

/-- The program when it is loaded. -/
def bundleProgram (n : Fin 128) : LinenoProgram :=
  (bundleUnit n).loaded { compilationDirectory := none } (bundleReader n)

/-- The program has its instructions. -/
theorem bundleProgram_spells (n : Fin 128) : Spells (bundleProgram n) (bundleOps n) := by
  have hat : (bundleReader n).At ((bundleUnit n).encode ++ []) :=
    (Reader.at_ofBuffer _ _ _).append_nil
  refine (bundleUnit n).spells hat rfl fun op hop => ?_
  simp only [bundleOps, List.mem_cons, List.not_mem_nil, or_false] at hop
  rcases hop with rfl | rfl | rfl | rfl | rfl | rfl
  · exact (by decide : 4096 < 2 ^ 64)
  · exact (by decide : 0x01 < 13)
  · exact (by decide : 0x02 < 13)
  · exact (by decide : 0x01 < 13)
  · exact (by decide : 0x02 < 13)
  · exact trivial

/-- The program does not divide by zero. -/
theorem bundleOps_not_dividesByZero (n : Fin 128) :
    ∀ op ∈ bundleOps n, ¬ op.asRead.DividesByZero (bundleProgram n) := by
  intro op hop
  simp only [bundleOps, List.mem_cons, List.not_mem_nil, or_false] at hop
  rcases hop with rfl | rfl | rfl | rfl | rfl | rfl
  · exact id
  · exact id
  · exact (by decide : (4 : UInt8) ≠ 0)
  · exact id
  · exact (by decide : (4 : UInt8) ≠ 0)
  · exact id

/-- The instructions of the program are exact. -/
theorem bundleOps_exact {n : Fin 128} (hn : n = 6 ∨ n = 8) :
    AllExact (bundleProgram n) (bundleProgram n).resetRegisters (bundleOps n) := by
  rcases hn with rfl | rfl
  · exact ⟨trivial, trivial, ⟨by decide, by decide⟩, trivial, ⟨by decide, by decide⟩, trivial,
      trivial⟩
  · exact ⟨trivial, trivial, ⟨by decide, by decide⟩, trivial, ⟨by decide, by decide⟩, trivial,
      trivial⟩

/-- Six operations are an instruction and a half. -/
theorem positions_six : (sequences (table (bundleProgram 6) (bundleOps 6))).map
    (·.map (·.registers.pos)) = [[toLex (4096, 0), toLex (4097, 2), toLex (4099, 0)]] := rfl

/-- Eight are two instructions. -/
theorem positions_eight : (sequences (table (bundleProgram 8) (bundleOps 8))).map
    (·.map (·.registers.pos)) = [[toLex (4096, 0), toLex (4098, 0), toLex (4100, 0)]] := rfl

/-- Six operations on, no range contains the address. -/
theorem delivered_six : (bundleProgram 6).deliveredSequences.map
    (fun ranges => (ranges.filter (·.contains 4097 0)).length) = [0] := rfl

/-- Rows in the order of their positions. -/
theorem sorted_of_positions {rs : List Row} {ps : List Pos} (hps : ps.Pairwise (· < ·))
    (h : (sequences rs).map (·.map (·.registers.pos)) = [ps]) :
    ∀ s ∈ sequences rs, (s.map (·.registers.pos)).Pairwise (· < ·) := by
  intro s hs
  have hmem : s.map (·.registers.pos) ∈ [ps] := h ▸ List.mem_map_of_mem hs
  rw [List.mem_singleton.mp hmem]
  exact hps

/-- A row in the middle of the instruction at 4097: the operations before it there are of the range
before, which ends with the instruction at 4096. -/
theorem bundle_operations_lost :
    ¬ ∀ (p : LinenoProgram) (ops : List LineOp), 1 ≤ p.maximumOperationsPerInstruction →
      1 ≤ p.minimumInstructionLength → (∀ op ∈ ops, ¬ op.asRead.DividesByZero p) → Spells p ops →
      (∀ s ∈ sequences (table p ops), (s.map (·.registers.pos)).Pairwise (· < ·)) →
        List.Forall₂ (CoversOnce p.maximumOperationsPerInstruction.toNat)
          (sequences (table p ops)) p.deliveredSequences := by
  intro hall
  have hcovers := hall (bundleProgram 6) (bundleOps 6) (by decide) (by decide)
    (bundleOps_not_dividesByZero 6) (bundleProgram_spells 6)
    (sorted_of_positions (by decide) positions_six)
  obtain ⟨s, hs, hpos⟩ := List.map_eq_singleton_iff.mp positions_six
  obtain ⟨ranges, hranges, hlost⟩ := List.map_eq_singleton_iff.mp delivered_six
  rw [hs, hranges] at hcovers
  cases hcovers with
  | cons honce _ =>
      have hfirst : ∀ first ∈ s.head?, first.registers.pos ≤ toLex (4097, 0) := by
        intro first hfirst
        have hhead : first.registers.pos ∈ (s.map (·.registers.pos)).head? := by
          rw [List.head?_map]
          exact Option.mem_map_of_mem _ hfirst
        rw [hpos] at hhead
        rw [← Option.some.inj hhead]
        decide
      have hlast : ∀ last ∈ s.getLast?, toLex (4097, 0) < last.registers.pos := by
        intro last hlast
        have hend : last.registers.pos ∈ (s.map (·.registers.pos)).getLast? := by
          rw [List.getLast?_map]
          exact Option.mem_map_of_mem _ hlast
        rw [hpos] at hend
        rw [← Option.some.inj hend]
        decide
      obtain ⟨range, hrange, -⟩ := honce 4097 0 (by decide) hfirst hlast
      rw [hrange] at hlost
      cases hlost

/-- Rows at whole instructions are told apart. -/
theorem bundle_operations_covered :
    List.Forall₂ (CoversOnce 4) (sequences (table (bundleProgram 8) (bundleOps 8)))
      (bundleProgram 8).deliveredSequences := by
  refine (covers_once_iff (bundleProgram 8) (bundleOps 8) (by decide)
    (bundleOps_not_dividesByZero 8) (bundleProgram_spells 8)
    (sorted_of_positions (by decide) positions_eight)).mpr ?_
  rw [rowsInStep_iff (by decide) (bundleOps_exact (.inr rfl))]
  intro s hs row hrow
  have hmem : s.map (·.registers.pos) ∈ [_] := positions_eight ▸ List.mem_map_of_mem hs
  have htail : row.registers.pos ∈ (s.map (·.registers.pos)).tail := by
    rw [← List.map_tail]
    exact List.mem_map_of_mem hrow
  rw [List.mem_singleton.mp hmem] at htail
  simp only [List.tail_cons, List.mem_cons, List.not_mem_nil, or_false] at htail
  rcases htail with heq | heq
  · exact congrArg (fun x => (ofLex x).2) heq
  · exact congrArg (fun x => (ofLex x).2) heq

end NovaProva.Dwarf
