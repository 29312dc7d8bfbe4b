import NovaProva.Dwarf.Walker
import NovaProva.Dwarf.Encode

/-!
# Dwarf — Operands and abbreviations

What is written is read: `read_attributes` reads an operand, as the value it stands for unless it is
a LEB128 number that does not come out right, `skip_attributes` skips the same bytes, and
`read_abbrevs` reads the table of abbreviations.
-/

namespace NovaProva.Dwarf

/-! ### Operands -/

section
variable {fmt : Format} {cu : CompileUnit}

/-- A block behind its length. -/
theorem Reads.block {is64 : Bool} {k : Nat} {x : Read Nat} {len bs : List UInt8} (hk : 0 < k)
    (hx : Reads is64 k x len bs.length) :
    Reads is64 k (do let n ← x; let v ← Read.readBytes n; return Value.bytes v) (len ++ bs)
      (.bytes bs) :=
  hx.bind ((Reads.readBytes hk bs).map Value.bytes)

/-- A block with nothing behind it: `read_bytes` refuses to read up to the end. -/
theorem Reads.block_end {is64 : Bool} {x : Read Nat} {len bs : List UInt8}
    (hx : Reads is64 0 x len bs.length) {r : Reader} (hi : r.is64 = is64) (h : r.At (len ++ bs)) :
    ((do let n ← x; let v ← Read.readBytes n; return Value.bytes v : Read Value) r).1 = none := by
  have hread := hx hi (Nat.zero_le _) h
  have hat := h.setP
  have hend := hat.end_eq
  have hlt := (r.setP (r.p + len.length)).end_lt
  have hbytes : Read.readBytes bs.length (r.setP (r.p + len.length)) =
      (none, r.setP (r.p + len.length)) := by
    rw [Read.readBytes, if_pos]
    rw [Nat.mod_eq_of_lt (by omega)]
    omega
  rw [Read.bind_some hread, Read.bind_none hbytes]

theorem Reads.skipBlock {is64 : Bool} {k : Nat} {x : Read Nat} {len bs : List UInt8}
    (hx : Reads is64 k x len bs.length) :
    Reads is64 k (do let n ← x; Read.skipBytes n) (len ++ bs) () :=
  hx.bind (Reads.skip bs)

/-- A reference to an offset of the unit. -/
theorem makeReference_of_lt (cu : CompileUnit) {off : Nat} (h : off < 2 ^ 32) :
    cu.makeReference off = { resolver := .compileUnit cu.index, offset := off } := by
  rw [CompileUnit.makeReference, Nat.mod_eq_of_lt h]

theorem Reads.reference {is64 : Bool} {k off : Nat} {x : Read Nat} {bs : List UInt8}
    (hx : Reads is64 k x bs off) (h : off < 2 ^ 32) :
    Reads is64 k (do let off ← x; return Value.ref (cu.makeReference off)) bs
      (.ref { resolver := .compileUnit cu.index, offset := off }) := by
  have hmap := hx.map fun off => Value.ref (cu.makeReference off)
  rwa [makeReference_of_lt cu h] at hmap

namespace Operand

/-- Numbers of at most four bytes come out right. -/
theorem readBack_of_length_le {l : Leb} (h : l.length ≤ 4) :
    (udata l).ReadBack ∧ (sdata l).ReadBack := by
  have hlt := l.toNat_lt
  have hpow : 128 ^ l.length ≤ 128 ^ 4 := Nat.pow_le_pow_right (by omega) h
  exact ⟨show l.toNat < 2 ^ 32 by omega,
    (signExtend_lebRead_eq_iff l).mp (signExtend_lebRead h)⟩

/-- The operands that `read_attributes` reads as the value they stand for. -/
theorem readValue_eq_iff (lo : LinkObject) (index : Nat) (op : Operand) :
    op.readValue lo index = op.value lo index ↔ op.ReadBack := by
  cases op with
  | udata v => exact (Value.uint32.injEq ..).to_iff.trans (lebRead_eq_iff v)
  | sdata v => exact (Value.sint32.injEq ..).to_iff.trans (signExtend_lebRead_eq_iff v)
  | _ => exact iff_of_true rfl trivial

theorem Valid.readValue_eq {fmt : Format} {lo : LinkObject} {op : Operand} (h : op.Valid fmt lo)
    (index : Nat) : op.readValue lo index = op.value lo index :=
  (readValue_eq_iff lo index op).mpr h.2

end Operand

/-- The length of a block. -/
theorem Reads.blockLength {is64 : Bool} {k n : Nat} {l : Leb} (h : l.toNat = n ∧ n < 2 ^ 32) :
    Reads is64 k Read.readUleb128 l.bytes n := by
  obtain ⟨rfl, hlt⟩ := h
  exact .readUleb128 hlt

/-- An offset has four bytes in version 2. -/
theorem Format.offsetSize_of_two (fmt : Format) (h : fmt.version = 2) : fmt.offsetSize = 4 := by
  have h64 : fmt.is64 = false := by
    by_contra hne
    have := fmt.three_le_of_is64 (Bool.eq_true_of_not_eq_false hne)
    omega
  rw [Format.offsetSize, h64]
  rfl

theorem Format.refAddrSize_of_ne (fmt : Format) (h : fmt.version ≠ 2) :
    fmt.refAddrSize = fmt.offsetSize := if_neg h

/-- The offset of a `DW_FORM_strp`, which has four bytes in version 2. -/
theorem Reads.strpOffset (hv : cu.version = fmt.version) {k off : Nat}
    (h : off < 256 ^ fmt.offsetSize) :
    Reads fmt.is64 k (readStrpOffset cu) (Bytes.leBytes fmt.offsetSize off) off := by
  unfold readStrpOffset
  split
  case isTrue htwo =>
    rw [fmt.offsetSize_of_two (hv ▸ htwo)] at h ⊢
    exact .readU32 h
  · exact .readOffset h

theorem Reads.strp (hv : cu.version = fmt.version) {k off : Nat}
    (h : off < 256 ^ fmt.offsetSize)
    (hstr : ((cu.linkObject.getSection .str).offsetAsString off).isSome) :
    ∃ x, readForm cu .strp = some x ∧
      Reads fmt.is64 k x (Bytes.leBytes fmt.offsetSize off)
        (.string (((cu.linkObject.getSection .str).offsetAsString off).getD [])) := by
  obtain ⟨v, hv'⟩ := Option.isSome_iff_exists.mp hstr
  refine ⟨_, rfl, ?_⟩
  rw [hv', Option.getD_some]
  refine (Reads.strpOffset hv h).bind_nil ?_
  rw [hv']
  exact .pure _

/-- `read_attributes` reads an operand, a block with at least one byte behind it. -/
theorem readForm_operand {k : Nat} (hv : cu.version = fmt.version) (op : Operand)
    (h : op.Spelled fmt cu.linkObject) (hk : op.form.isBlock = true → 0 < k) :
    ∃ x, readForm cu op.form = some x ∧
      Reads fmt.is64 k x (op.encode fmt) (op.readValue cu.linkObject cu.index) := by
  cases op with
  | addr v => exact ⟨_, rfl, (Reads.readU64 v.toNat_lt).map _⟩
  | block1 bs => exact ⟨_, rfl, .block (hk rfl) (.readU8 h)⟩
  | block2 bs => exact ⟨_, rfl, .block (hk rfl) (.readU16 h)⟩
  | block4 bs => exact ⟨_, rfl, .block (hk rfl) (.readU32 h)⟩
  | block len bs => exact ⟨_, rfl, .block (hk rfl) (.blockLength h)⟩
  | exprloc len bs => exact ⟨_, rfl, .block (hk rfl) (.blockLength h)⟩
  | data1 v => exact ⟨_, rfl, (Reads.readU8 v.toNat_lt).map _⟩
  | data2 v => exact ⟨_, rfl, (Reads.readU16 v.toNat_lt).map _⟩
  | data4 v => exact ⟨_, rfl, (Reads.readU32 v.toNat_lt).map _⟩
  | data8 v => exact ⟨_, rfl, (Reads.readU64 v.toNat_lt).map _⟩
  | udata v => exact ⟨_, rfl, (Reads.readUleb128_any v).map _⟩
  | sdata v => exact ⟨_, rfl, (Reads.readSleb128_any v).map _⟩
  | flag v => exact ⟨_, rfl, (Reads.readU8 v.toNat_lt).map _⟩
  | flagPresent => exact ⟨_, rfl, .pure _⟩
  | string s => exact ⟨_, rfl, (Reads.readString h).map _⟩
  | strp off => exact Reads.strp hv h.1 h.2
  | ref1 off => exact ⟨_, rfl, .reference (.readU8 off.toNat_lt) (by have := off.toNat_lt; omega)⟩
  | ref2 off => exact ⟨_, rfl, .reference (.readU16 off.toNat_lt) (by have := off.toNat_lt; omega)⟩
  | ref4 off => exact ⟨_, rfl, .reference (.readU32 off.toNat_lt) off.toNat_lt⟩
  | ref8 off => exact ⟨_, rfl, .reference (.readU64 off.toNat_lt) h⟩
  | refAddr off =>
      refine ⟨_, rfl, ?_⟩
      rw [Operand.encode, fmt.refAddrSize_of_ne h.1]
      exact (Reads.readOffset h.2).map _
  | refSig8 v => exact ⟨_, rfl, (Reads.readU64 v.toNat_lt).map _⟩
  | secOffset off => exact ⟨_, rfl, (Reads.readOffset h).map _⟩
  | refUdata off => cases h
  | indirect f op => cases h

/-- The forms that `read_attributes` can't handle. -/
theorem Operand.not_handled {op : Operand} (h : ¬ op.Handled) :
    op.form = .refUdata ∨ op.form = .indirect := by
  by_contra hno
  exact h (not_or.mp hno)

/-- An operand in a form that is read is in one that can be handled. -/
theorem Operand.Spelled.handled {lo : LinkObject} {op : Operand} (h : op.Spelled fmt lo) :
    op.Handled := by
  by_contra hno
  rcases not_handled hno with hform | hform
  · cases op with
    | refUdata off => cases h
    | _ => cases hform
  · cases op with
    | indirect f op => cases h
    | _ => cases hform

/-- `read_attributes` ends the process at the others. -/
theorem readForm_not_handled {op : Operand} (h : ¬ op.Handled) : readForm cu op.form = none := by
  rcases Operand.not_handled h with hform | hform
  · rw [hform]
    rfl
  · rw [hform]
    rfl

/-- They have at least one byte. -/
theorem Operand.encode_ne_nil {op : Operand} (h : ¬ op.Handled) : op.encode fmt ≠ [] := by
  rcases Operand.not_handled h with hform | hform
  · cases op with
    | refUdata off => exact off.bytes_ne_nil
    | _ => cases hform
  · cases op with
    | indirect f op => exact List.append_ne_nil_of_left_ne_nil f.bytes_ne_nil _
    | _ => cases hform

/-- `read_attributes` does not read a block with nothing behind it. -/
theorem readForm_block_end (op : Operand) (h : op.Spelled fmt cu.linkObject)
    (hblock : op.form.isBlock = true) {r : Reader} (hr : r.At (op.encode fmt)) :
    ∃ x, readForm cu op.form = some x ∧ (x r).1 = none := by
  cases op with
  | block1 bs => exact ⟨_, rfl, Reads.block_end (.readU8 h) rfl hr⟩
  | block2 bs => exact ⟨_, rfl, Reads.block_end (.readU16 h) rfl hr⟩
  | block4 bs => exact ⟨_, rfl, Reads.block_end (.readU32 h) rfl hr⟩
  | block len bs => exact ⟨_, rfl, Reads.block_end (.blockLength h) rfl hr⟩
  | exprloc len bs => exact ⟨_, rfl, Reads.block_end (.blockLength h) rfl hr⟩
  | _ => cases hblock

/-- `skip_attributes` skips the bytes of an operand. -/
theorem skipForm_operand (hv : cu.version = fmt.version) (op : Operand)
    (h : op.Spelled fmt cu.linkObject) :
    ∃ x, skipForm cu op.form = some x ∧ Reads fmt.is64 1 x (op.encode fmt) () := by
  cases op with
  | addr v => exact ⟨_, rfl, .skip_of_length (Bytes.length_leBytes ..)⟩
  | block1 bs => exact ⟨_, rfl, .skipBlock (.readU8 h)⟩
  | block2 bs => exact ⟨_, rfl, .skipBlock (.readU16 h)⟩
  | block4 bs => exact ⟨_, rfl, .skipBlock (.readU32 h)⟩
  | block len bs => exact ⟨_, rfl, .skipBlock (.blockLength h)⟩
  | exprloc len bs => exact ⟨_, rfl, .skipBlock (.blockLength h)⟩
  | data1 v => exact ⟨_, rfl, .skip_of_length (Bytes.length_leBytes ..)⟩
  | data2 v => exact ⟨_, rfl, .skip_of_length (Bytes.length_leBytes ..)⟩
  | data4 v => exact ⟨_, rfl, .skip_of_length (Bytes.length_leBytes ..)⟩
  | data8 v => exact ⟨_, rfl, .skip_of_length (Bytes.length_leBytes ..)⟩
  | udata v => exact ⟨_, rfl, .skipUleb128 v⟩
  | sdata v => exact ⟨_, rfl, .skipSleb128 v⟩
  | flag v => exact ⟨_, rfl, .skip_of_length (Bytes.length_leBytes ..)⟩
  | flagPresent => exact ⟨_, rfl, .pure _⟩
  | string s => exact ⟨_, rfl, .skipString h⟩
  | strp off =>
      refine ⟨_, rfl, ?_⟩
      split
      case isTrue htwo =>
        exact .skip_of_length
          ((Bytes.length_leBytes ..).trans (fmt.offsetSize_of_two (hv ▸ htwo)))
      · exact .skipOffset (Bytes.length_leBytes ..)
  | ref1 off => exact ⟨_, rfl, .skip_of_length (Bytes.length_leBytes ..)⟩
  | ref2 off => exact ⟨_, rfl, .skip_of_length (Bytes.length_leBytes ..)⟩
  | ref4 off => exact ⟨_, rfl, .skip_of_length (Bytes.length_leBytes ..)⟩
  | ref8 off => exact ⟨_, rfl, .skip_of_length (Bytes.length_leBytes ..)⟩
  | refAddr off =>
      refine ⟨_, rfl, .skipOffset ?_⟩
      rw [Operand.encode, fmt.refAddrSize_of_ne h.1]
      exact Bytes.length_leBytes ..
  | refSig8 v => exact ⟨_, rfl, .ignore (.skip_of_length (Bytes.length_leBytes ..))⟩
  | secOffset off => exact ⟨_, rfl, .ignore (.skipOffset (Bytes.length_leBytes ..))⟩
  | refUdata off => cases h
  | indirect f op => cases h

end

/-! ### Abbreviations -/

/-- The code, name or form 0. -/
theorem Reads.zero {is64 : Bool} {k : Nat} : Reads is64 k Read.readUleb128 [0] 0 :=
  Reads.readUleb128 (l := Leb.last 0) (by decide)

/-- The attribute specifications up to a pair of zeros, with enough rounds. -/
theorem Reads.attrSpecs {is64 : Bool} {specs : List (Leb × Leb)}
    (h : ∀ spec ∈ specs, Leb32 spec.1 ∧ Leb32 spec.2 ∧
      ¬ (spec.1.toNat = 0 ∧ spec.2.toNat = 0))
    {n : Nat} (hn : specs.length < n) :
    Reads is64 0 (readAttrSpecs n) (specs.flatMap AbbrevDecl.encodeSpec ++ [0, 0])
      (specs.map fun spec => { name := spec.1.toNat, form := spec.2.toNat }) := by
  induction specs generalizing n with
  | nil =>
      obtain ⟨n, rfl⟩ := Nat.exists_eq_add_of_lt hn
      refine Reads.zero.bind (Reads.zero.bind_nil ?_)
      rw [if_pos ⟨rfl, rfl⟩]
      exact .pure _
  | cons spec specs ih =>
      obtain ⟨n, rfl⟩ := Nat.exists_eq_add_of_lt hn
      obtain ⟨hname, hform, hne⟩ := h spec List.mem_cons_self
      have htail := (ih (fun s hs => h s (List.mem_cons_of_mem _ hs))
        (n := specs.length + 1 + n) (by omega)).map fun specs =>
          ({ name := spec.1.toNat, form := spec.2.toNat } : AttrSpec) :: specs
      rw [List.flatMap_cons, AbbrevDecl.encodeSpec, List.append_assoc, List.append_assoc]
      refine (Reads.readUleb128 hname).bind ((Reads.readUleb128 hform).bind ?_)
      rw [if_neg hne]
      exact htail

theorem AbbrevDecl.length_encodeSpec_pos (spec : Leb × Leb) :
    0 < (AbbrevDecl.encodeSpec spec).length := by
  have hpos := spec.1.length_pos
  rw [AbbrevDecl.encodeSpec, List.length_append, Leb.length_bytes]
  omega

theorem AbbrevDecl.length_encode_pos (d : AbbrevDecl) : 0 < d.encode.length := by
  have hpos := d.code.length_pos
  rw [AbbrevDecl.encode, List.length_append, Leb.length_bytes]
  omega

/-- A declaration behind its code. -/
theorem Reads.abbrev {is64 : Bool} {d : AbbrevDecl} (h : d.Valid) :
    Reads is64 0 (Abbrev.read d.code.toNat)
      (d.tag.bytes ++ (Bytes.leBytes 1 d.children.toNat ++
        (d.specs.flatMap AbbrevDecl.encodeSpec ++ [0, 0]))) d.toAbbrev := by
  have hchildren : d.children.toNat < 256 ^ 1 := by
    cases d.children <;> decide
  refine (Reads.readUleb128 h.tag).bind ((Reads.readU8 hchildren).bind ?_)
  refine Reads.map (x := fun r => readAttrSpecs (r.rest.length + 1) r) _ ?_
  intro r t hi ht hat
  have hlen := Bytes.length_le_length_flatMap AbbrevDecl.length_encodeSpec_pos d.specs
  have hrest : d.specs.length < r.rest.length + 1 := by
    rw [hat.rest_eq, List.length_append, List.length_append]
    omega
  exact Reads.attrSpecs h.specs hrest hi ht hat

/-- What `abbrevs_` has at a code. -/
def abbrevAt (abbrevs : List (Option Abbrev)) (code : Nat) : Option Abbrev :=
  (abbrevs[code]?).join

theorem getAbbrev_eq (cu : CompileUnit) (code : Nat) :
    cu.getAbbrev code = abbrevAt cu.abbrevs code := by
  unfold CompileUnit.getAbbrev abbrevAt
  split
  case isTrue hge =>
    rw [List.getElem?_eq_none hge]
    rfl
  · rfl

theorem abbrevAt_resize (abbrevs : List (Option Abbrev)) {n : Nat} (hn : abbrevs.length ≤ n)
    (code : Nat) : abbrevAt (resize abbrevs n) code = abbrevAt abbrevs code := by
  unfold abbrevAt resize
  rw [List.take_of_length_le hn, List.getElem?_append]
  split
  · rfl
  case isFalse hge =>
    rw [List.getElem?_eq_none (Nat.not_lt.mp hge), List.getElem?_replicate]
    split
    · rfl
    · rfl

theorem abbrevAt_set (abbrevs : List (Option Abbrev)) {a : Abbrev} (h : a.code < abbrevs.length)
    (code : Nat) :
    abbrevAt (abbrevs.set a.code (some a)) code =
      if code = a.code then some a else abbrevAt abbrevs code := by
  unfold abbrevAt
  rw [List.getElem?_set]
  by_cases hc : a.code = code
  · rw [if_pos hc, if_pos h, if_pos hc.symm]
    rfl
  · rw [if_neg hc, if_neg (Ne.symm hc)]

theorem abbrevAt_setAbbrev (abbrevs : List (Option Abbrev)) {a : Abbrev}
    (h : a.code < 2 ^ 32 - 1) (code : Nat) :
    abbrevAt (setAbbrev abbrevs a) code =
      if code = a.code then some a else abbrevAt abbrevs code := by
  unfold setAbbrev
  have hmod : (a.code + 1) % 2 ^ 32 = a.code + 1 := Nat.mod_eq_of_lt (by omega)
  rw [hmod]
  split
  case isTrue hge =>
    have hlen : a.code < (resize abbrevs (a.code + 1)).length := by
      simp only [resize, List.length_append, List.length_take, List.length_replicate]
      omega
    rw [abbrevAt_set _ hlen, abbrevAt_resize _ (by omega)]
  case isFalse hlt =>
    rw [abbrevAt_set _ (by omega)]

/-- The abbreviations of a table are entered one after the other. -/
def enterAll (table : List AbbrevDecl) (abbrevs : List (Option Abbrev)) : List (Option Abbrev) :=
  table.foldl (fun abbrevs d => setAbbrev abbrevs d.toAbbrev) abbrevs

theorem lookupAbbrev_cons (d : AbbrevDecl) (table : List AbbrevDecl) (code : Nat) :
    lookupAbbrev (d :: table) code =
      (lookupAbbrev table code).or (if code = d.code.toNat then some d.toAbbrev else none) := by
  unfold lookupAbbrev
  rw [List.reverse_cons, List.find?_append]
  cases table.reverse.find? (·.code.toNat = code) with
  | some e => rfl
  | none =>
      by_cases hc : d.code.toNat = code
      · simp [hc]
      · simp [hc, Ne.symm hc]

/-- Of several declarations with one code, the last one counts. -/
theorem abbrevAt_enterAll {table : List AbbrevDecl} (h : ∀ d ∈ table, d.Valid)
    (abbrevs : List (Option Abbrev)) (code : Nat) :
    abbrevAt (enterAll table abbrevs) code =
      (lookupAbbrev table code).or (abbrevAt abbrevs code) := by
  induction table generalizing abbrevs with
  | nil => rfl
  | cons d table ih =>
      have hd := h d List.mem_cons_self
      have hrest := ih (fun e he => h e (List.mem_cons_of_mem _ he)) (setAbbrev abbrevs d.toAbbrev)
      rw [abbrevAt_setAbbrev _ hd.code_lt] at hrest
      rw [lookupAbbrev_cons, Option.or_assoc]
      refine hrest.trans (congrArg _ ?_)
      change (if code = d.code.toNat then _ else _) = _
      split
      · rfl
      · rfl

/-- The loop of `read_abbrevs` reads a table up to its end, with enough rounds. -/
theorem readAbbrevsLoop_table {table : List AbbrevDecl} (h : ∀ d ∈ table, d.Valid) {n : Nat}
    (hn : table.length < n) (abbrevs : List (Option Abbrev)) {r : Reader} {post : List UInt8}
    (hat : r.At (encodeTable table ++ post)) :
    (readAbbrevsLoop n abbrevs r).1 = enterAll table abbrevs := by
  induction table generalizing n abbrevs r with
  | nil =>
      obtain ⟨n, rfl⟩ := Nat.exists_eq_add_of_lt hn
      rw [readAbbrevsLoop, Reads.zero.run hat]
      rfl
  | cons d table ih =>
      obtain ⟨n, rfl⟩ := Nat.exists_eq_add_of_lt hn
      have hd := h d List.mem_cons_self
      rw [encodeTable, List.flatMap_cons, AbbrevDecl.encode, List.append_assoc, List.append_assoc,
        List.append_assoc] at hat
      have hcode := (Reads.readUleb128 hd.code).run hat
      have hread := (Reads.abbrev hd).run hat.setP
      rw [readAbbrevsLoop, hcode]
      dsimp only
      rw [if_neg (Nat.ne_of_gt hd.code_pos), hread]
      have htable : table.flatMap AbbrevDecl.encode ++ ([0] ++ post) =
          encodeTable table ++ post := (List.append_assoc ..).symm
      have hat' := hat.setP.setP
      rw [htable] at hat'
      exact ih (fun e he => h e (List.mem_cons_of_mem _ he)) (n := table.length + 1 + n)
        (by omega) _ hat'

/-- **`read_abbrevs` reads the table** at the unit's offset of `.debug_abbrev`. -/
theorem readAbbrevs_table {table : List AbbrevDecl} (h : ∀ d ∈ table, d.Valid)
    {cu : CompileUnit} (hcu : cu.abbrevs = []) {r : Reader} {post : List UInt8}
    (hle : cu.abbrevsOffset ≤ r.bytes.length)
    (hbytes : r.bytes.drop cu.abbrevsOffset = encodeTable table ++ post) (code : Nat) :
    (cu.readAbbrevs r).1.getAbbrev code = lookupAbbrev table code := by
  have hat := r.at_seek hle
  rw [hbytes] at hat
  have hlen := Bytes.length_le_length_flatMap AbbrevDecl.length_encode_pos table
  have hrounds : table.length < ((Read.seek cu.abbrevsOffset r).2).rest.length + 1 := by
    rw [hat.rest_eq, encodeTable, List.length_append, List.length_append]
    omega
  have hloop := readAbbrevsLoop_table h hrounds cu.abbrevs hat
  have hread : (cu.readAbbrevs r).1.abbrevs = (readAbbrevsLoop
      ((Read.seek cu.abbrevsOffset r).2.rest.length + 1) cu.abbrevs
      (Read.seek cu.abbrevsOffset r).2).1 := rfl
  rw [getAbbrev_eq, hread, hloop, abbrevAt_enterAll h, hcu]
  exact Option.or_none

end NovaProva.Dwarf
