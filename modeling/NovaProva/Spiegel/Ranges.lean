import NovaProva.Dwarf.Preorder
import NovaProva.Spiegel.Address
import Mathlib.Data.Set.Basic

/-!
# Spiegel — The addresses of a function

What the DWARF standard says the addresses of a function are, from the attributes as they are
written, against the ranges `insert_ranges` makes of them after `read_attributes` has read them.
They are not the same where a constant is signed, since `get_uint64_attribute` knows no signed
values, or does not fit into 32 bits, since `read_uleb128` returns no more; where a range list is
the first of its section, since the offset 0 stands for none; and where a list starts with ranges
relative to the start of the compile unit, for which 0 is taken.
-/

namespace NovaProva.Dwarf

/-! ### Attributes as they are written -/

namespace Operand

/-- An operand that can be written in the format `fmt`; LEB128 numbers are of any length and fit
into 64 bits. -/
def Written (fmt : Format) (lo : LinkObject) : Operand → Prop
  | udata v => v.toNat < 2 ^ 64
  | sdata v => -2 ^ 63 ≤ v.toInt ∧ v.toInt < 2 ^ 63
  | op      => op.Spelled fmt lo

/-- An operand that is written down can be. -/
theorem Written.spelled {fmt : Format} {lo : LinkObject} {op : Operand} (h : op.Written fmt lo) :
    op.Spelled fmt lo := by
  cases op with
  | udata v => trivial
  | sdata v => trivial
  | _ => exact h

/-- The forms of the classes address and constant. -/
def isNumber : Operand → Bool
  | addr _ | data1 _ | data2 _ | data4 _ | data8 _ | udata _ | sdata _ => true
  | _ => false

/-- The forms of an offset into `.debug_ranges`. -/
def isSectionOffset : Operand → Bool
  | data4 _ | data8 _ | secOffset _ => true
  | _ => false

/-- The number an operand stands for, as a 64-bit word. -/
def number : Operand → Nat
  | addr v        => v.toNat
  | data1 v       => v.toNat
  | data2 v       => v.toNat
  | data4 v       => v.toNat
  | data8 v       => v.toNat
  | udata v       => v.toNat
  | sdata v       => (v.toInt % 2 ^ 64).toNat
  | secOffset off => off.toNat
  | _             => 0

/-- The number `get_uint64_attribute` makes of it. -/
def asRead : Operand → Nat
  | udata v => (lebRead v Read.lebStart).vv
  | sdata _ => 0
  | op      => op.number

/-- It is the number it stands for. -/
def ReadRight : Operand → Prop
  | udata v => v.toNat < 2 ^ 32
  | sdata v => v.toInt = 0
  | _       => True

/-- An operand is read as its number exactly if it is one of those read right. -/
theorem asRead_eq_iff {fmt : Format} {lo : LinkObject} {op : Operand} (h : op.Written fmt lo) :
    op.asRead = op.number ↔ op.ReadRight := by
  cases op with
  | udata v => exact lebRead_eq_iff v
  | sdata v =>
      obtain ⟨hle, hlt⟩ := h
      change 0 = (v.toInt % 2 ^ 64).toNat ↔ v.toInt = 0
      omega
  | _ => exact iff_of_true rfl trivial

/-- The number of an operand has 64 bits. -/
theorem number_lt {fmt : Format} {lo : LinkObject} {op : Operand} (h : op.Written fmt lo) :
    op.number < 2 ^ 64 := by
  cases op with
  | addr v => exact v.toNat_lt
  | data1 v => exact v.toNat_lt.trans (by decide)
  | data2 v => exact v.toNat_lt.trans (by decide)
  | data4 v => exact v.toNat_lt.trans (by decide)
  | data8 v => exact v.toNat_lt
  | udata v => exact h
  | sdata v =>
      change (v.toInt % 2 ^ 64).toNat < 2 ^ 64
      omega
  | secOffset off => exact off.toNat_lt
  | _ => exact Nat.two_pow_pos 64

/-- What is read of an operand has 64 bits. -/
theorem asRead_lt {fmt : Format} {lo : LinkObject} {op : Operand} (h : op.Written fmt lo) :
    op.asRead < 2 ^ 64 := by
  cases op with
  | udata v =>
      exact (lebRead_vv_lt v Read.lebStart (Nat.two_pow_pos 32)).trans (by decide)
  | sdata v => exact Nat.two_pow_pos 64
  | _ => exact number_lt h

/-- `get_uint64_attribute` of what was read. -/
theorem number_readValue (lo : LinkObject) (index : Nat) {op : Operand}
    (h : op.isNumber = true ∨ op.isSectionOffset = true) :
    (match some (op.readValue lo index) with
      | some (.uint32 v) => v
      | some (.uint64 v) => v
      | _                => 0) = op.asRead := by
  cases op with
  | _ => first | rfl | simp [isNumber, isSectionOffset] at h

end Operand

/-- The operand of the attribute `name`. -/
def attr (specs : List AttrSpec) (ops : List Operand) (name : Nat) : Option Operand :=
  ((specs.zip ops).find? (·.1.name = name)).map Prod.snd

/-- An entry without the attribute. -/
theorem attr_eq_none {specs : List AttrSpec} {name : Nat} (ops : List Operand)
    (h : name ∉ specs.map (·.name)) : attr specs ops name = none := by
  rw [attr, Option.map_eq_none_iff, List.find?_eq_none]
  rintro ⟨i, op⟩ hmem
  have hi := List.mem_map_of_mem (f := AttrSpec.name) (List.of_mem_zip hmem).1
  simp only [decide_eq_true_eq]
  rintro rfl
  exact h hi

/-- An entry whose first attribute may be the one. -/
theorem attr_cons (i : AttrSpec) (is : List AttrSpec) (op : Operand) (ops : List Operand)
    (name : Nat) :
    attr (i :: is) (op :: ops) name = if i.name = name then some op else attr is ops name := by
  rw [attr, List.zip_cons_cons, List.find?_cons]
  by_cases hi : i.name = name
  · simp [hi]
  · simp [hi, attr]

/-- An attribute is one of the operands. -/
theorem mem_of_attr {specs : List AttrSpec} {ops : List Operand} {name : Nat} {op : Operand}
    (h : attr specs ops name = some op) : op ∈ ops := by
  rw [attr, Option.map_eq_some_iff] at h
  obtain ⟨q, hfind, rfl⟩ := h
  exact (List.of_mem_zip (List.mem_of_find?_eq_some hfind)).2

/-- Of attributes with different names each is found by its name. -/
theorem lastOf_eq_attr (val : Operand → Value) {specs : List AttrSpec} {ops : List Operand}
    (hnames : (specs.map (·.name)).Nodup) (hlen : specs.length = ops.length) (name : Nat) :
    lastOf specs (ops.map val) name = (attr specs ops name).map val := by
  induction specs generalizing ops with
  | nil =>
      cases ops with
      | nil => rfl
      | cons op ops => cases hlen
  | cons i is ih =>
      cases ops with
      | nil => cases hlen
      | cons op ops =>
          rw [List.map_cons, List.nodup_cons] at hnames
          rw [List.map_cons, lastOf, ih hnames.2 (Nat.succ.inj hlen), attr_cons]
          by_cases hi : i.name = name
          · rw [attr_eq_none ops (hi ▸ hnames.1), if_pos hi, if_pos hi]
            rfl
          · rw [if_neg hi, if_neg hi, Option.or_none]

namespace Entry

/-- The form `get_attribute_form` returns is that of the attribute's operand. -/
theorem getAttributeForm_of_attr {specs : List AttrSpec} {ops : List Operand} {name : Nat}
    {op : Operand} {e : Entry} {a : Abbrev} (he : e.abbrev? = some a) (ha : a.attrSpecs = specs)
    (hforms : specs.map (·.form) = ops.map (·.form.code)) (h : attr specs ops name = some op) :
    e.getAttributeForm name = op.form.code := by
  have hfind : ∃ i, specs.find? (·.name = name) = some i ∧ i.form = op.form.code := by
    clear ha
    induction specs generalizing ops with
    | nil => cases h
    | cons i is ih =>
        cases ops with
        | nil => cases hforms
        | cons op' ops =>
            rw [List.map_cons, List.map_cons, List.cons.injEq] at hforms
            rw [attr_cons] at h
            by_cases hi : i.name = name
            · rw [if_pos hi] at h
              cases h
              exact ⟨i, by simp [hi], hforms.1⟩
            · rw [if_neg hi] at h
              obtain ⟨j, hj, hform⟩ := ih hforms.2 h
              exact ⟨j, by rw [List.find?_cons_of_neg (by simpa using hi), hj], hform⟩
  obtain ⟨i, hi, hform⟩ := hfind
  rw [getAttributeForm, he, Option.map_some, Option.getD_some, ha, hi]
  exact hform

end Entry

/-! ### Range lists -/

/-- An entry of a range list: two addresses relative to a base, or the base for what follows. -/
inductive RangeEntry where
  | pair (start stop : UInt64)
  | base (b : UInt64)
  deriving DecidableEq

namespace RangeEntry

/-- The two addresses of an entry. -/
def encode : RangeEntry → List UInt8
  | pair start stop => Bytes.leBytes 8 start.toNat ++ Bytes.leBytes 8 stop.toNat
  | base b          => Bytes.leBytes 8 maxAddr ++ Bytes.leBytes 8 b.toNat

/-- Neither the end of the list nor a base address. -/
def Valid : RangeEntry → Prop
  | pair start stop => ¬ (start.toNat = 0 ∧ stop.toNat = 0) ∧ start.toNat ≠ maxAddr
  | base _          => True

/-- The ranges of a list with the base address it starts with. -/
def ranges : Nat → List RangeEntry → List (Range Nat)
  | _, []                      => []
  | b, .pair start stop :: es  =>
      { lo := (start.toNat + b) % 2 ^ 64, hi := (stop.toNat + b) % 2 ^ 64 } :: ranges b es
  | _, .base b :: es           => ranges b.toNat es

/-- The ranges before the first base address of a list. -/
def lead : Nat → List RangeEntry → List (Range Nat)
  | b, .pair start stop :: es  =>
      { lo := (start.toNat + b) % 2 ^ 64, hi := (stop.toNat + b) % 2 ^ 64 } :: lead b es
  | _, _                       => []

/-- The ranges behind it. -/
def tail : List RangeEntry → List (Range Nat)
  | []             => []
  | .pair _ _ :: es => tail es
  | .base b :: es  => ranges b.toNat es

/-- An entry of a list has bytes. -/
theorem length_encode_pos (e : RangeEntry) : 0 < e.encode.length := by
  cases e with
  | pair start stop => simp [encode]
  | base b => simp [encode]

/-- The ranges of a list are those up to its first base and those behind. -/
theorem mem_ranges (b : Nat) (es : List RangeEntry) (r : Range Nat) :
    r ∈ ranges b es ↔ r ∈ lead b es ∨ r ∈ tail es := by
  induction es with
  | nil => simp [ranges, lead, tail]
  | cons e es ih =>
      cases e with
      | pair start stop => rw [ranges, lead, tail, List.mem_cons, List.mem_cons, ih, or_assoc]
      | base b' => simp [ranges, lead, tail]

end RangeEntry

/-- The two zeros a range list ends with. -/
def endOfList : List UInt8 := Bytes.leBytes 8 0 ++ Bytes.leBytes 8 0

/-- A list in `.debug_ranges`, with its end. -/
def encodeList (es : List RangeEntry) : List UInt8 := es.flatMap RangeEntry.encode ++ endOfList

/-- The pair of addresses `start` and `stop`. -/
theorem Reads.readPair {is64 : Bool} {k start stop : Nat} (h₁ : start < 2 ^ 64)
    (h₂ : stop < 2 ^ 64) :
    Reads is64 k (do
        let start ← Read.readAddr
        let stop ← Read.readAddr
        return (start, stop) : Read (Nat × Nat))
      (Bytes.leBytes 8 start ++ Bytes.leBytes 8 stop) (start, stop) :=
  (Reads.readU64 h₁).bind ((Reads.readU64 h₂).map fun stop => (start, stop))

/-- **The loop of `insert_ranges` reads a range list** up to its end. -/
theorem readRanges_encode {es : List RangeEntry} (hes : ∀ e ∈ es, e.Valid) {n b : Nat}
    (hn : es.length < n) {r : Reader} {t : List UInt8} (hat : r.At (encodeList es ++ t)) :
    readRanges n b r = RangeEntry.ranges b es := by
  induction es generalizing n b r with
  | nil =>
      cases n with
      | zero => cases hn
      | succ n =>
          have hread := (Reads.readPair (k := 0) (Nat.two_pow_pos 64) (Nat.two_pow_pos 64)).run hat
          rw [readRanges, hread, RangeEntry.ranges]
          rfl
  | cons e es ih =>
      cases n with
      | zero => cases hn
      | succ n =>
          have hn' : es.length < n := Nat.lt_of_succ_lt_succ hn
          have htail := fun e he => hes e (List.mem_cons_of_mem _ he)
          rw [encodeList, List.flatMap_cons, List.append_assoc, List.append_assoc,
            ← List.append_assoc (es.flatMap RangeEntry.encode)] at hat
          cases e with
          | pair start stop =>
              obtain ⟨hzero, hmax⟩ := hes _ List.mem_cons_self
              rw [RangeEntry.encode] at hat
              have hread := (Reads.readPair (k := 0) start.toNat_lt stop.toNat_lt).run hat
              rw [readRanges, hread]
              dsimp only
              rw [if_neg hzero, if_neg hmax, ih htail hn' hat.setP, RangeEntry.ranges]
          | base b' =>
              rw [RangeEntry.encode] at hat
              have hread := (Reads.readPair (k := 0) (show maxAddr < 2 ^ 64 by decide)
                b'.toNat_lt).run hat
              rw [readRanges, hread]
              dsimp only
              rw [if_neg (fun h => absurd h.1 (by decide)), if_pos rfl, ih htail hn' hat.setP,
                RangeEntry.ranges]

/-! ### What the standard says, and what is inserted -/

/-- The attributes that give a function its addresses, in a unit of `version` that starts at
`base`, and the list `DW_AT_ranges` names. -/
structure Extent where
  version : Nat
  base : Nat
  low : Option Operand
  high : Option Operand
  ranges : Option Operand
  list : List RangeEntry

namespace Extent

/-- Whether the end is relative to the start. -/
def isRelative (x : Extent) (hi : Operand) : Bool := x.version = 4 && hi.form ≠ .addr

/-- The range with the ends `lo` and `hi`, as a kind of number. -/
def between (x : Extent) (num : Operand → Nat) (lo hi : Operand) : Range Nat :=
  { lo := num lo
    hi := if x.isRelative hi then (num hi + num lo) % 2 ^ 64 else num hi }

/-- The addresses in one of the ranges. -/
def unionOf (rs : List (Range Nat)) : Set Nat := { a | ∃ r ∈ rs, r.Contains a }

/-- The addresses the standard assigns to the function, and its one address if that is all it
says. -/
def addresses (x : Extent) : Set Nat :=
  match x.low, x.high with
  | some lo, some hi => unionOf [x.between Operand.number lo hi]
  | _, _ =>
      match x.ranges, x.low with
      | some _, _     => unionOf (RangeEntry.ranges x.base x.list)
      | none, some lo => {lo.number}
      | none, none    => ∅

/-- When `insert_ranges` inserts these.  With both ends: both are read right, or neither what is
written nor what is read has any address.  With a list: it is not at the offset 0 and the ranges
before its first base address do not depend on the start of the unit, but for addresses of those
behind it; or it is at 0, and has no addresses but the one start that is given. -/
def Inserted (x : Extent) : Prop :=
  match x.low, x.high with
  | some lo, some hi =>
      (lo.ReadRight ∧ hi.ReadRight) ∨
        ((x.between Operand.number lo hi).hi ≤ lo.number ∧
          (x.between Operand.asRead lo hi).hi ≤ lo.asRead)
  | _, _ =>
      match x.ranges, x.low with
      | some off, low =>
          if off.number ≠ 0 then
            ∀ a ∉ unionOf (RangeEntry.tail x.list),
              a ∈ unionOf (RangeEntry.lead 0 x.list) ↔ a ∈ unionOf (RangeEntry.lead x.base x.list)
          else
            unionOf (RangeEntry.ranges x.base x.list) =
              match low with
              | some lo => {lo.asRead}
              | none    => ∅
      | none, some lo => lo.ReadRight
      | none, none    => True

end Extent

namespace Walker

/-- The address `insert_ranges` inserts alone. -/
def insertedPoint (w : Walker) : Option Nat :=
  if (w.entry.getAttribute dwAtLowPc).isSome && (w.entry.getAttribute dwAtHighPc).isSome then none
  else if w.entry.getUint64Attribute dwAtRanges ≠ 0 then none
  else if (w.entry.getAttribute dwAtLowPc).isSome then
    some (w.entry.getUint64Attribute dwAtLowPc)
  else none

/-- The addresses `insert_ranges` inserts for the walker's entry. -/
def insertedAddresses (w : Walker) : Set Nat :=
  Extent.unionOf w.insertedRanges ∪ { a | w.insertedPoint = some a }

end Walker

/-! ### What is inserted for what is read -/

namespace Extent

/-- What `insert_ranges` makes of the attributes. -/
def readAddresses (x : Extent) : Set Nat :=
  match x.low, x.high with
  | some lo, some hi => unionOf [x.between Operand.asRead lo hi]
  | _, _ =>
      match (x.ranges.map Operand.number).getD 0, x.low with
      | 0, some lo  => {lo.asRead}
      | 0, none     => ∅
      | _ + 1, _    => unionOf (RangeEntry.ranges 0 x.list)

/-- The attributes of an entry with the specifications `specs` and the operands `ops`. -/
structure Of (x : Extent) (cu : CompileUnit) (specs : List AttrSpec) (ops : List Operand) :
    Prop where
  version : x.version = cu.version
  low : attr specs ops dwAtLowPc = x.low
  high : attr specs ops dwAtHighPc = x.high
  ranges : attr specs ops dwAtRanges = x.ranges
  low_number : ∀ op, x.low = some op → op.isNumber = true
  high_number : ∀ op, x.high = some op → op.isNumber = true
  ranges_offset : ∀ op, x.ranges = some op → op.isSectionOffset = true
  valid : ∀ e ∈ x.list, e.Valid
  list : ∀ op, x.ranges = some op →
    ∃ t, (cu.linkObject.getSection .ranges).bytes.drop op.number = encodeList x.list ++ t

end Extent

section
variable {cu : CompileUnit} {specs : List AttrSpec} {ops : List Operand} {x : Extent}

/-- The offset of a list is read as it is. -/
theorem Operand.asRead_of_isSectionOffset {op : Operand} (h : op.isSectionOffset = true) :
    op.asRead = op.number := by
  cases op with
  | _ => first | rfl | cases h

/-- An entry whose attributes were read from the operands. -/
structure ReadFrom (e : Entry) (cu : CompileUnit) (specs : List AttrSpec) (ops : List Operand) :
    Prop where
  value : ∀ m, (Entry.nameToIndex m).isSome →
    e.getAttribute m = (attr specs ops m).map (Operand.readValue cu.linkObject cu.index)
  form : ∀ m op, attr specs ops m = some op → e.getAttributeForm m = op.form.code

/-- An entry has the attributes that were written. -/
theorem ReadFrom.isSome {e : Entry} (h : ReadFrom e cu specs ops) {m : Nat}
    (hm : (Entry.nameToIndex m).isSome) :
    (e.getAttribute m).isSome = (attr specs ops m).isSome := by
  rw [h.value m hm, Option.isSome_map]

/-- An entry has the numbers that were written, as they are read. -/
theorem ReadFrom.getUint64Attribute {e : Entry} (h : ReadFrom e cu specs ops) {m : Nat}
    (hm : (Entry.nameToIndex m).isSome)
    (hop : ∀ op, attr specs ops m = some op → op.isNumber = true ∨ op.isSectionOffset = true) :
    e.getUint64Attribute m = ((attr specs ops m).map Operand.asRead).getD 0 := by
  rw [Entry.getUint64Attribute, h.value m hm]
  cases hattr : attr specs ops m with
  | none => rfl
  | some op => exact Operand.number_readValue cu.linkObject cu.index (hop op hattr)

/-- The list is where `DW_AT_ranges` says. -/
theorem at_list {r : Reader} {off : Nat} {es : List RangeEntry} {t : List UInt8}
    (hat : r.At r.bytes) (hoff : r.bytes.drop off = encodeList es ++ t) :
    (Read.skip off r).2.At (encodeList es ++ t) := by
  have hlen : off + 16 ≤ r.bytes.length := by
    have h := congrArg List.length hoff
    rw [List.length_drop, List.length_append, encodeList, List.length_append, endOfList,
      List.length_append, Bytes.length_leBytes] at h
    omega
  have hsplit : r.At (r.bytes.take off ++ (encodeList es ++ t)) := by
    rw [← hoff, List.take_append_drop]
    exact hat
  have hskip := (Reads.skip_of_length (k := 0) (n := off)
    (List.length_take_of_le (by omega))).run hsplit
  rw [hskip]
  exact hsplit.setP

/-- The number `get_uint64_attribute` finds for `DW_AT_ranges`. -/
theorem Extent.Of.ranges_asRead (hx : x.Of cu specs ops) :
    (x.ranges.map Operand.asRead).getD 0 = (x.ranges.map Operand.number).getD 0 := by
  cases hranges : x.ranges with
  | none => rfl
  | some op => exact Operand.asRead_of_isSectionOffset (hx.ranges_offset op hranges)

/-- Forms have different numbers. -/
theorem Form.code_inj {f g : Form} : f.code = g.code ↔ f = g := by
  constructor
  · intro h
    have hsome := congrArg Form.ofCode h
    rw [Form.ofCode_code, Form.ofCode_code] at hsome
    exact Option.some.inj hsome
  · rintro rfl
    rfl

/-- A point covers nothing. -/
theorem Extent.unionOf_point (lo : Nat) : Extent.unionOf [.point lo] = ∅ := by
  refine Set.eq_empty_of_forall_notMem ?_
  rintro a ⟨r, hr, hle, hlt⟩
  obtain rfl := List.mem_singleton.mp hr
  exact absurd hlt (Nat.not_lt.mpr hle)

/-- No ranges cover nothing. -/
theorem Extent.unionOf_nil : Extent.unionOf [] = ∅ := by
  refine Set.eq_empty_of_forall_notMem ?_
  rintro a ⟨r, hr, -⟩
  cases hr

namespace Walker

variable {w : Walker}

/-- With both ends. -/
theorem insertedAddresses_both (h : ReadFrom w.entry w.compileUnit specs ops)
    (hx : x.Of w.compileUnit specs ops) {lo hi : Operand} (hlow : x.low = some lo)
    (hhigh : x.high = some hi) :
    w.insertedAddresses = Extent.unionOf [x.between Operand.asRead lo hi] := by
  have hlo := h.isSome (m := dwAtLowPc) (by decide)
  have hhi := h.isSome (m := dwAtHighPc) (by decide)
  have hlo' := h.getUint64Attribute (m := dwAtLowPc) (by decide)
    fun op hop => .inl (hx.low_number op (hx.low ▸ hop))
  have hhi' := h.getUint64Attribute (m := dwAtHighPc) (by decide)
    fun op hop => .inl (hx.high_number op (hx.high ▸ hop))
  have hform := h.form dwAtHighPc hi (hx.high.trans hhigh)
  rw [hx.low, hlow] at hlo hlo'
  rw [hx.high, hhigh] at hhi hhi'
  have hboth : ((w.entry.getAttribute dwAtLowPc).isSome &&
      (w.entry.getAttribute dwAtHighPc).isSome) = true := by
    rw [hlo, hhi]
    rfl
  have hpoint : w.insertedPoint = none := by rw [insertedPoint, if_pos hboth]
  have hranges : w.insertedRanges = [x.between Operand.asRead lo hi] := by
    rw [insertedRanges, if_pos hboth, hlo', hhi', Extent.between, Extent.isRelative, hx.version,
      hform]
    by_cases hrel : w.compileUnit.version = 4 ∧ hi.form.code ≠ Form.addr.code
    · rw [if_pos hrel, if_pos (by simpa [Form.code_inj] using hrel)]
      rfl
    · rw [if_neg hrel, if_neg (by simpa [Form.code_inj] using hrel)]
      rfl
  rw [insertedAddresses, hranges, hpoint]
  simp

/-- With a range list, a single address or nothing. -/
theorem insertedAddresses_single (h : ReadFrom w.entry w.compileUnit specs ops)
    (hx : x.Of w.compileUnit specs ops) (hnot : (x.low.isSome && x.high.isSome) ≠ true) :
    w.insertedAddresses =
      match (x.ranges.map Operand.number).getD 0, x.low with
      | 0, some lo  => {lo.asRead}
      | 0, none     => ∅
      | _ + 1, _    => Extent.unionOf (RangeEntry.ranges 0 x.list) := by
  have hlo := h.isSome (m := dwAtLowPc) (by decide)
  have hhi := h.isSome (m := dwAtHighPc) (by decide)
  have hlo' := h.getUint64Attribute (m := dwAtLowPc) (by decide)
    fun op hop => .inl (hx.low_number op (hx.low ▸ hop))
  have hoff := h.getUint64Attribute (m := dwAtRanges) (by decide)
    fun op hop => .inr (hx.ranges_offset op (hx.ranges ▸ hop))
  rw [hx.low] at hlo hlo'
  rw [hx.high] at hhi
  rw [hx.ranges, hx.ranges_asRead] at hoff
  have hboth : ((w.entry.getAttribute dwAtLowPc).isSome &&
      (w.entry.getAttribute dwAtHighPc).isSome) ≠ true := by
    rw [hlo, hhi]
    exact hnot
  rw [insertedAddresses, insertedRanges, insertedPoint, if_neg hboth, if_neg hboth, hoff]
  cases hnum : (x.ranges.map Operand.number).getD 0 with
  | zero =>
      rw [if_neg (not_not.mpr rfl), if_neg (not_not.mpr rfl), hlo, hlo']
      cases x.low with
      | none => simp [Extent.unionOf_nil]
      | some lo =>
          simp only [Option.isSome_some, if_true, Extent.unionOf_point, Set.empty_union,
            Option.some.injEq, Option.map_some, Option.getD_some]
          ext a
          exact eq_comm
  | succ n =>
      obtain ⟨op, hop⟩ : ∃ op, x.ranges = some op := by
        cases hranges : x.ranges with
        | none =>
            rw [hranges] at hnum
            cases hnum
        | some op => exact ⟨op, rfl⟩
      have hopnum : op.number = n + 1 := by
        rw [hop] at hnum
        exact hnum
      obtain ⟨t, ht⟩ := hx.list op hop
      rw [hopnum] at ht
      have hat := at_list (w.compileUnit.linkObject.getSection .ranges).at_getContents ht
      have hfuel : x.list.length <
          (Read.skip (n + 1)
            (w.compileUnit.linkObject.getSection .ranges).getContents).2.rest.length + 1 := by
        rw [hat.rest_eq, encodeList, List.length_append, List.length_append]
        have hle : x.list.length ≤ (x.list.flatMap RangeEntry.encode).length :=
          Bytes.length_le_length_flatMap RangeEntry.length_encode_pos x.list
        omega
      rw [if_pos (Nat.succ_ne_zero n), if_pos (Nat.succ_ne_zero n),
        readRanges_encode hx.valid hfuel hat]
      simp

/-- **What `insert_ranges` inserts for an entry that was read.** -/
theorem insertedAddresses_eq (h : ReadFrom w.entry w.compileUnit specs ops)
    (hx : x.Of w.compileUnit specs ops) : w.insertedAddresses = x.readAddresses := by
  rw [Extent.readAddresses]
  cases hlow : x.low with
  | none =>
      rw [insertedAddresses_single h hx (by simp [hlow]), hlow]
  | some lo =>
      cases hhigh : x.high with
      | none =>
          rw [insertedAddresses_single h hx (by simp [hhigh]), hlow]
      | some hi => exact insertedAddresses_both h hx hlow hhigh

end Walker

end

/-! ### Whether it is the same -/

/-- Two ranges contain the same if they are the same or both empty. -/
theorem unionOf_singleton_eq_iff {r s : Range Nat} :
    Extent.unionOf [r] = Extent.unionOf [s] ↔
      (r.lo = s.lo ∧ r.hi = s.hi) ∨ (r.hi ≤ r.lo ∧ s.hi ≤ s.lo) := by
  have hmem : ∀ (q : Range Nat) (a : Nat),
      a ∈ Extent.unionOf [q] ↔ q.lo ≤ a ∧ a < q.hi := by
    intro q a
    constructor
    · rintro ⟨q', hq, hin⟩
      obtain rfl := List.mem_singleton.mp hq
      exact hin
    · intro hin
      exact ⟨q, List.mem_singleton_self q, hin⟩
  constructor
  · intro heq
    -- each range has its first and its last address in the other
    have h₁ := fun a => (hmem r a).symm.trans ((Set.ext_iff.mp heq a).trans (hmem s a))
    have hrlo := h₁ r.lo
    have hslo := h₁ s.lo
    have hrhi := h₁ (r.hi - 1)
    have hshi := h₁ (s.hi - 1)
    omega
  · rintro (⟨hlo, hhi⟩ | ⟨hr, hs⟩)
    · ext a
      rw [hmem, hmem, hlo, hhi]
    · ext a
      rw [hmem, hmem]
      omega

/-- A list covers what its parts cover. -/
theorem unionOf_ranges (b : Nat) (es : List RangeEntry) :
    Extent.unionOf (RangeEntry.ranges b es) =
      Extent.unionOf (RangeEntry.lead b es) ∪ Extent.unionOf (RangeEntry.tail es) := by
  ext a
  constructor
  · rintro ⟨r, hr, hin⟩
    rcases (RangeEntry.mem_ranges b es r).mp hr with hr | hr
    · exact .inl ⟨r, hr, hin⟩
    · exact .inr ⟨r, hr, hin⟩
  · rintro (⟨r, hr, hin⟩ | ⟨r, hr, hin⟩)
    · exact ⟨r, (RangeEntry.mem_ranges b es r).mpr (.inl hr), hin⟩
    · exact ⟨r, (RangeEntry.mem_ranges b es r).mpr (.inr hr), hin⟩

/-- Sets that differ outside a third are told apart there. -/
theorem union_eq_union_iff {α : Type} {s t u : Set α} :
    s ∪ u = t ∪ u ↔ ∀ a ∉ u, a ∈ s ↔ a ∈ t := by
  constructor
  · intro heq a ha
    have hiff := Set.ext_iff.mp heq a
    simpa [ha] using hiff
  · intro h
    ext a
    by_cases ha : a ∈ u
    · simp [ha]
    · simp [ha, h a ha]

/-- With both ends. -/
theorem Extent.between_eq_iff {fmt : Format} {lo : LinkObject} {x : Extent} {l h : Operand}
    (hl : l.Written fmt lo) (hh : h.Written fmt lo) :
    (x.between Operand.asRead l h).lo = (x.between Operand.number l h).lo ∧
        (x.between Operand.asRead l h).hi = (x.between Operand.number l h).hi ↔
      l.ReadRight ∧ h.ReadRight := by
  have hlr := Operand.asRead_lt hl
  have hln := Operand.number_lt hl
  have hhr := Operand.asRead_lt hh
  have hhn := Operand.number_lt hh
  rw [← Operand.asRead_eq_iff hl, ← Operand.asRead_eq_iff hh, Extent.between, Extent.between]
  dsimp only
  split
  · omega
  · exact Iff.rfl

/-- With a range list. -/
theorem Extent.list_eq_iff (off base : Nat) (low : Option Operand) (es : List RangeEntry) :
    (match off, low with
      | 0, some lo => {lo.asRead}
      | 0, none    => ∅
      | _ + 1, _   => unionOf (RangeEntry.ranges 0 es)) = unionOf (RangeEntry.ranges base es) ↔
      if off ≠ 0 then
        ∀ a ∉ unionOf (RangeEntry.tail es),
          a ∈ unionOf (RangeEntry.lead 0 es) ↔ a ∈ unionOf (RangeEntry.lead base es)
      else
        unionOf (RangeEntry.ranges base es) =
          match low with
          | some lo => {lo.asRead}
          | none    => ∅ := by
  cases off with
  | zero =>
      rw [if_neg (not_not.mpr rfl)]
      cases low with
      | none => exact eq_comm
      | some lo => exact eq_comm
  | succ n =>
      rw [if_pos (Nat.succ_ne_zero n), ← union_eq_union_iff, ← unionOf_ranges, ← unionOf_ranges]

/-- **What is inserted is what was written** exactly if the end is read right. -/
theorem Extent.readAddresses_eq_iff {fmt : Format} {lo : LinkObject} (x : Extent)
    (hlow : ∀ op, x.low = some op → op.Written fmt lo)
    (hhigh : ∀ op, x.high = some op → op.Written fmt lo) :
    x.readAddresses = x.addresses ↔ x.Inserted := by
  rw [readAddresses, addresses, Inserted]
  cases hl : x.low with
  | none =>
      cases hr : x.ranges with
      | none => exact iff_of_true rfl trivial
      | some off => exact list_eq_iff off.number x.base none x.list
  | some l =>
      cases hh : x.high with
      | some h =>
          dsimp only
          rw [unionOf_singleton_eq_iff, between_eq_iff (hlow l hl) (hhigh h hh),
            and_comm (a := (x.between Operand.asRead l h).hi ≤ _)]
          exact Iff.rfl
      | none =>
          cases hr : x.ranges with
          | none =>
              change ({l.asRead} : Set Nat) = {l.number} ↔ l.ReadRight
              rw [Set.singleton_eq_singleton_iff, Operand.asRead_eq_iff (hlow l hl)]
          | some off => exact list_eq_iff off.number x.base (some l) x.list

/-! ### From the bytes -/

/-- An entry that was set up but not read, whose attributes are `ops`, the bytes of which are before
the walker. -/
structure Before (fmt : Format) (w : Walker) (a : Abbrev) (ops : List Operand) (s : List UInt8) :
    Prop where
  version : w.compileUnit.version = fmt.version
  is64 : w.reader.is64 = fmt.is64
  abbrev? : w.entry.abbrev? = some a
  fresh : ∀ i, w.entry.generation i ≠ w.entry.latest
  names : (a.attrSpecs.map (·.name)).Nodup
  forms : a.attrSpecs.map (·.form) = ops.map (·.form.code)
  written : ∀ op ∈ ops, op.Written fmt w.compileUnit.linkObject
  /-- at least the null entry behind the entries of the unit -/
  more : 1 ≤ s.length
  here : w.reader.At (ops.flatMap (Operand.encode fmt) ++ s)

/-- Reading the attributes inserts the ranges that are read. -/
theorem Before.readAttributes {fmt : Format} {w : Walker} {a : Abbrev} {ops : List Operand}
    {s : List UInt8} {x : Extent} (h : Before fmt w a ops s)
    (hx : x.Of w.compileUnit a.attrSpecs ops) :
    ∃ w', w.readAttributes a.attrSpecs = .ok (.ok, w') ∧
      w'.insertedAddresses = x.readAddresses := by
  have hforms : ∀ pre op post, ops = pre ++ op :: post →
      ∃ y, readForm w.compileUnit op.form = some y ∧
        Reads w.reader.is64 (post.flatMap (Operand.encode fmt) ++ s).length y (op.encode fmt)
          (op.readValue w.compileUnit.linkObject w.compileUnit.index) := by
    intro pre op post hsplit
    have hmore := h.more
    rw [h.is64]
    refine readForm_operand h.version op (h.written op (by simp [hsplit])).spelled fun _ => ?_
    rw [List.length_append]
    omega
  have hread := readAttributes_reads (w := w) _ _ h.forms hforms h.here
  refine ⟨_, hread, Walker.insertedAddresses_eq ?_ hx⟩
  refine ⟨?_, ?_⟩
  · intro m hm
    have hlen : a.attrSpecs.length = ops.length := by
      have hmap := congrArg List.length h.forms
      rwa [List.length_map, List.length_map] at hmap
    have hnone : w.entry.getAttribute m = none := by
      rw [Entry.getAttribute]
      split
      · rfl
      · exact if_neg (h.fresh _)
    rw [Entry.getAttribute_addValues _ _ _ _ hm, lastOf_eq_attr _ h.names hlen, hnone,
      Option.or_none]
  · intro m op hop
    exact Entry.getAttributeForm_of_attr
      ((Entry.addValues_frame _ _ _).2.2.1.trans h.abbrev?) rfl h.forms hop

/-- **The addresses of a function.**  `read_attributes` reads the attributes of a function, and what
`insert_ranges` then inserts are the addresses the standard assigns to it exactly if
`Extent.Inserted`. -/
theorem insertRanges_exact_iff {fmt : Format} {w : Walker} {a : Abbrev} {ops : List Operand}
    {s : List UInt8} {x : Extent} (h : Before fmt w a ops s)
    (hx : x.Of w.compileUnit a.attrSpecs ops) :
    ∃ w', w.readAttributes a.attrSpecs = .ok (.ok, w') ∧
      (w'.insertedAddresses = x.addresses ↔ x.Inserted) := by
  obtain ⟨w', hread, heq⟩ := h.readAttributes hx
  refine ⟨w', hread, ?_⟩
  rw [heq]
  exact x.readAddresses_eq_iff
    (fun op hop => h.written op (mem_of_attr (hx.low.trans hop)))
    (fun op hop => h.written op (mem_of_attr (hx.high.trans hop)))

/-- A function with an address for its start and an end in the form of `high`. -/
def endAbbrev (high : Operand) : Abbrev :=
  { code := 1
    tag := dwTagSubprogram
    children := 0
    attrSpecs := [⟨dwAtLowPc, Form.addr.code⟩, ⟨dwAtHighPc, high.form.code⟩] }

/-- The operands of a function at 4096, with this end. -/
def endOperands (high : Operand) : List Operand := [.addr 4096, high]

/-- Before the operands of such a function, of version 4. -/
def beforeFunction (high : Operand)
    (h : 4096 + ((endOperands high).flatMap (Operand.encode .four) ++ [0]).length < 2 ^ 64) :
    Walker :=
  { compileUnit := { index := 0, linkObject := functionObject 0 4096, version := 4 }
    reader := .ofBuffer 4096 _ h
    entry := ({} : Entry).setup 11 1 (endAbbrev high) }

/-- What the function says of its addresses. -/
def endExtent (high : Operand) : Extent :=
  { version := 4
    base := 0
    low := some (.addr 4096)
    high := some high
    ranges := none
    list := [] }

/-- The walker is before the function. -/
theorem before_beforeFunction (high : Operand)
    (h : 4096 + ((endOperands high).flatMap (Operand.encode .four) ++ [0]).length < 2 ^ 64)
    (hhigh : high.Written .four (functionObject 0 4096)) :
    Before .four (beforeFunction high h) (endAbbrev high) (endOperands high) [0] where
  version := rfl
  is64 := rfl
  abbrev? := rfl
  fresh i := show (0 : Nat) ≠ 1 by decide
  names := show [dwAtLowPc, dwAtHighPc].Nodup by decide
  forms := rfl
  written := by
    intro op hop
    rcases List.mem_cons.mp hop with rfl | hop
    · trivial
    · obtain rfl := List.mem_singleton.mp hop
      exact hhigh
  more := by decide
  here := Reader.at_ofBuffer 4096 _ h

/-- The function says where it starts and ends. -/
theorem endExtent_of (high : Operand)
    (h : 4096 + ((endOperands high).flatMap (Operand.encode .four) ++ [0]).length < 2 ^ 64)
    (hhigh : high.isNumber = true) :
    (endExtent high).Of (beforeFunction high h).compileUnit (endAbbrev high).attrSpecs
      (endOperands high) where
  version := rfl
  low := rfl
  high := rfl
  ranges := rfl
  low_number op hop := by
    cases hop
    rfl
  high_number op hop := by
    cases hop
    exact hhigh
  ranges_offset op hop := by cases hop
  valid e he := by cases he
  list op hop := by cases hop

/-- A function of 16 bytes, the length in `DW_FORM_sdata`: nothing of it is inserted. -/
theorem insertRanges_sdata_lost :
    ¬ ∀ (fmt : Format) (w : Walker) (a : Abbrev) (ops : List Operand) (s : List UInt8) (x : Extent),
      Before fmt w a ops s → x.Of w.compileUnit a.attrSpecs ops →
        ∃ w', w.readAttributes a.attrSpecs = .ok (.ok, w') ∧
          w'.insertedAddresses = x.addresses := by
  intro hall
  have hbefore := before_beforeFunction (.sdata (.byte 16)) (by decide)
    ⟨by decide, by decide⟩
  have hof := endExtent_of (.sdata (.byte 16)) (by decide) rfl
  obtain ⟨w', hread, heq⟩ := hall _ _ _ _ _ _ hbefore hof
  obtain ⟨w₁, hread₁, heq₁⟩ := hbefore.readAttributes hof
  cases hread.symm.trans hread₁
  have hmem : (4096 : Nat) ∈ (endExtent (.sdata (.byte 16))).addresses :=
    ⟨_, List.mem_singleton_self _, by decide, by decide⟩
  rw [← heq, heq₁] at hmem
  obtain ⟨r, hr, hin⟩ := hmem
  obtain rfl := List.mem_singleton.mp hr
  exact absurd hin.2 (by decide)

/-- The same function, the length in `DW_FORM_data4`. -/
theorem insertRanges_exact_data4 :
    ∃ w', (beforeFunction (.data4 16) (by decide)).readAttributes
        (endAbbrev (.data4 16)).attrSpecs = .ok (.ok, w') ∧
      w'.insertedAddresses = { a | 4096 ≤ a ∧ a < 4112 } := by
  obtain ⟨w', hread, hiff⟩ := insertRanges_exact_iff
    (before_beforeFunction (.data4 16) (by decide) trivial)
    (endExtent_of (.data4 16) (by decide) rfl)
  refine ⟨w', hread, (hiff.mpr (.inl ⟨trivial, trivial⟩)).trans ?_⟩
  ext a
  constructor
  · rintro ⟨r, hr, hin⟩
    obtain rfl := List.mem_singleton.mp hr
    exact hin
  · intro hin
    exact ⟨_, List.mem_singleton_self _, hin⟩

end NovaProva.Dwarf
