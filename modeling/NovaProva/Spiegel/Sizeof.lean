import Mathlib.Algebra.Order.BigOperators.GroupWithZero.List
import NovaProva.Spiegel.FullName

/-!
# Spiegel — Sizeof

`type_t::get_sizeof`.  A type is an entry, and its size is computed along the references to other
entries: a typedef is as large as what it names, an array as large as the product of its bounds
times its element.

* `TypeTree`: a type and the entries that describe it, down to the entries that have a size.
* `TypeTree.Described`: the entries are in the units and say what C says about the type.
* `TypeTree.seen`: what `get_sizeof` takes from the entries, `getSizeof_seen`.
* `TypeTree.seen_eq_iff`: when this is the size of the type.

A `DW_AT_upper_bound` is taken for the number of elements, an entry for `restrict` for one that has
a size of its own, and a number that was not read into 32 bits without a sign is not seen at all.
-/

namespace NovaProva.Dwarf

open Walker

/-- `DW_TAG_array_type`. -/
def dwTagArrayType : Nat := 0x01
/-- `DW_TAG_enumeration_type`. -/
def dwTagEnumerationType : Nat := 0x04
/-- `DW_TAG_pointer_type`. -/
def dwTagPointerType : Nat := 0x0f
/-- `DW_TAG_reference_type`. -/
def dwTagReferenceType : Nat := 0x10
/-- `DW_TAG_structure_type`. -/
def dwTagStructureType : Nat := 0x13
/-- `DW_TAG_typedef`. -/
def dwTagTypedef : Nat := 0x16
/-- `DW_TAG_union_type`. -/
def dwTagUnionType : Nat := 0x17
/-- `DW_TAG_subrange_type`. -/
def dwTagSubrangeType : Nat := 0x21
/-- `DW_TAG_base_type`. -/
def dwTagBaseType : Nat := 0x24
/-- `DW_TAG_const_type`. -/
def dwTagConstType : Nat := 0x26
/-- `DW_TAG_volatile_type`. -/
def dwTagVolatileType : Nat := 0x35
/-- `DW_TAG_restrict_type`. -/
def dwTagRestrictType : Nat := 0x37

/-- `DW_AT_byte_size`. -/
def dwAtByteSize : Nat := 0x0b
/-- `DW_AT_upper_bound`. -/
def dwAtUpperBound : Nat := 0x2f
/-- `DW_AT_count`. -/
def dwAtCount : Nat := 0x37
/-- `DW_AT_type`. -/
def dwAtType : Nat := 0x49

/-! ### `get_sizeof` -/

/-- The `count` of a subrange: its `DW_AT_count`, or if that is 0 its `DW_AT_upper_bound`. -/
def boundOf (count upperBound : Nat) : Nat := if count ≠ 0 then count else upperBound

/-- `byte_size = (byte_size ? byte_size : 1) * count`, for a `count` that is not 0. -/
def multiplyBound (byteSize count : Nat) : Nat :=
  if count ≠ 0 then (if byteSize ≠ 0 then byteSize else 1) * count % 2 ^ 32 else byteSize

/-- The body of the loop over the children of an array. -/
def Entry.multiply (e : Entry) (byteSize : Nat) : Nat :=
  if e.getTag = dwTagSubrangeType then
    multiplyBound byteSize
      (boundOf (e.getUint32Attribute dwAtCount) (e.getUint32Attribute dwAtUpperBound))
  else byteSize

section
variable (cus : List CompileUnit)

/-- The loop over the children of an array, from the entry the walker is at, if `found`. -/
def multiplyBounds : Nat → Bool → Walker → Nat → Except MoveError Nat
  | 0,     _,     _, _        => .error .outOfFuel
  | _ + 1, false, _, byteSize => .ok byteSize
  | n + 1, true,  w, byteSize => do
      let next ← moveNext cus n w
      multiplyBounds n next.1 next.2 (w.entry.multiply byteSize)

/-- The `switch` of `get_sizeof`, at the entry of the type; `sizeof` is `get_sizeof` of the types it
refers to. -/
def sizeofEntry (n : Nat) (sizeof : Reference → Except MoveError Nat) (w : Walker) :
    Except MoveError Nat := do
  let byteSize := w.entry.getUint32Attribute dwAtByteSize
  if w.entry.getTag = dwTagArrayType then
    if byteSize ≠ 0 then return byteSize
    let elementSize ← sizeof (w.entry.getReferenceAttribute dwAtType)
    let down ← moveDown w
    let byteSize ← multiplyBounds cus n down.1 down.2 0
    return byteSize * elementSize % 2 ^ 32
  else if w.entry.getTag = dwTagTypedef ∨ w.entry.getTag = dwTagVolatileType ∨
      w.entry.getTag = dwTagConstType then
    sizeof (w.entry.getReferenceAttribute dwAtType)
  else if w.entry.getTag = dwTagPointerType ∨ w.entry.getTag = dwTagReferenceType then
    return Read.addrsize
  else return byteSize

/-- `get_sizeof` of the type at a reference.  The fuel bounds the types on the way and the entries
that are read for each. -/
def getSizeof : Nat → Reference → Except MoveError Nat
  | 0,     _   => .error .outOfFuel
  | n + 1, ref =>
    if ref = Reference.null then .ok 0
    else
      match ofReference cus ref with
      | none   => .error .noCompileUnit
      | some w =>
        match moveNext cus (n + 1) w with
        | .error e       => .error e
        | .ok (false, _) => .ok 0
        | .ok (true, w') => sizeofEntry cus n (getSizeof n) w'

end

/-! ### Types and their entries -/

/-- An entry, and the unit it is in. -/
structure TypeEntry where
  unit : CompileUnit
  node : Node

/-- A type as it is described: the entry for each type on the way to those that have a size of
their own. -/
inductive TypeTree where
  /-- a base type, an enumeration, a struct or a union -/
  | sized (e : TypeEntry)
  /-- a pointer or a reference, whatever to -/
  | address (e : TypeEntry)
  /-- a typedef, `const` or `volatile` -/
  | synonym (e : TypeEntry) (target : TypeTree)
  | restrict (e : TypeEntry) (target : TypeTree)
  /-- an array, with the entries below it -/
  | array (e : TypeEntry) (children : Nodes) (element : TypeTree)

/-- The number an attribute has, in any form of a constant. -/
def constantOf : Option Value → Option Nat
  | some (.uint32 v) => some v
  | some (.uint64 v) => some v
  | some (.sint32 v) => if 0 ≤ v then some v.toNat else none
  | _                => none

/-- The number `get_uint32_attribute` sees. -/
def uint32Of : Option Value → Nat
  | some (.uint32 v) => v
  | _                => 0

/-- The attribute is a number `get_uint32_attribute` sees. -/
def Node.HasUint32 (d : Node) (name : Nat) : Prop := ∃ v, d.attribute name = some (.uint32 v)

/-- The number of elements of a dimension: its `DW_AT_count`, or one more than its
`DW_AT_upper_bound`. -/
def Node.elements (d : Node) : Option Nat :=
  match constantOf (d.attribute dwAtCount) with
  | some n => some n
  | none   => (constantOf (d.attribute dwAtUpperBound)).map (· + 1)

/-- The entry says how many elements there are, one at least, and says it once. -/
def Node.IsDimension (d : Node) : Prop :=
  ∃ n, d.elements = some n ∧ 1 ≤ n ∧
    ∀ u, constantOf (d.attribute dwAtUpperBound) = some u → u + 1 = n

/-- The dimensions of an array. -/
def Nodes.dimensions (children : Nodes) : List Node :=
  children.toList.filter (·.decl.tag = dwTagSubrangeType)

/-- The bound `get_sizeof` sees. -/
def Node.bound (d : Node) : Nat :=
  boundOf (uint32Of (d.attribute dwAtCount)) (uint32Of (d.attribute dwAtUpperBound))

namespace TypeEntry

/-- The entry is one of the units. -/
def IsIn (cus : List CompileUnit) (e : TypeEntry) : Prop :=
  e.unit ∈ cus ∧ ∃ path, e.unit.PathTo path ∧ path.getLast? = some e.node

/-- The reference is one to the entry. -/
def At (cus : List CompileUnit) (e : TypeEntry) (ref : Reference) : Prop :=
  resolveReference cus ref = some (e.unit, e.node.off)

/-- The `DW_AT_type` of the entry is a reference to the other. -/
def TypeIs (cus : List CompileUnit) (e target : TypeEntry) : Prop :=
  ∃ ref, e.node.attribute dwAtType = some (.ref ref) ∧ target.At cus ref

/-- If the entry has a `DW_AT_byte_size` of its own it is `size`. -/
def Agrees (e : TypeEntry) (size : Nat) : Prop :=
  ∀ m, constantOf (e.node.attribute dwAtByteSize) = some m → m = size

end TypeEntry

namespace TypeTree

/-- The entry of the type itself. -/
def entry : TypeTree → TypeEntry
  | sized e      => e
  | address e    => e
  | synonym e _  => e
  | restrict e _ => e
  | array e _ _  => e

/-- The size of the type in C. -/
def size : TypeTree → Nat
  | sized e                  => (constantOf (e.node.attribute dwAtByteSize)).getD 0
  | address _                => Read.addrsize
  | synonym _ target         => target.size
  | restrict _ target        => target.size
  | array _ children element =>
    (children.dimensions.map fun d => d.elements.getD 0).prod * element.size

/-- The entries are in the units and describe the type. -/
def Described (cus : List CompileUnit) : TypeTree → Prop
  | sized e =>
    e.IsIn cus ∧ (e.node.decl.tag = dwTagBaseType ∨ e.node.decl.tag = dwTagEnumerationType ∨
        e.node.decl.tag = dwTagStructureType ∨ e.node.decl.tag = dwTagUnionType) ∧
      (constantOf (e.node.attribute dwAtByteSize)).isSome
  | address e =>
    e.IsIn cus ∧ (e.node.decl.tag = dwTagPointerType ∨ e.node.decl.tag = dwTagReferenceType)
  | synonym e target =>
    e.IsIn cus ∧ (e.node.decl.tag = dwTagTypedef ∨ e.node.decl.tag = dwTagVolatileType ∨
        e.node.decl.tag = dwTagConstType) ∧
      e.TypeIs cus target.entry ∧ target.Described cus
  | restrict e target =>
    e.IsIn cus ∧ e.node.decl.tag = dwTagRestrictType ∧ e.Agrees target.size ∧
      e.TypeIs cus target.entry ∧ target.Described cus
  | array e children element =>
    e.IsIn cus ∧ e.node.decl.tag = dwTagArrayType ∧ e.Agrees (array e children element).size ∧
      (e.node.Below e.unit children ∧ children.Linked cus e.unit ∧
        ∀ d ∈ children.dimensions, d.IsDimension) ∧
      e.TypeIs cus element.entry ∧ element.Described cus

/-- The entries give the size in the way `get_sizeof` reads it. -/
def Exact : TypeTree → Prop
  | sized e                  => e.node.HasUint32 dwAtByteSize
  | address _                => True
  | synonym _ target         => target.Exact
  | restrict e _             => e.node.HasUint32 dwAtByteSize
  | array e children element =>
    e.node.HasUint32 dwAtByteSize ∨
      element.Exact ∧ (∃ d ∈ children.dimensions, d.HasUint32 dwAtCount) ∧
        ∀ d ∈ children.dimensions, d.elements = some 1 ∨ d.HasUint32 dwAtCount

/-- What `get_sizeof` takes from the entries. -/
def seen : TypeTree → Nat
  | sized e                  => uint32Of (e.node.attribute dwAtByteSize)
  | address _                => Read.addrsize
  | synonym _ target         => target.seen
  | restrict e _             => uint32Of (e.node.attribute dwAtByteSize)
  | array e children element =>
    if uint32Of (e.node.attribute dwAtByteSize) ≠ 0 then uint32Of (e.node.attribute dwAtByteSize)
    else (children.dimensions.foldl (fun b d => multiplyBound b d.bound) 0) * element.seen % 2 ^ 32

end TypeTree

/-! ### Bounds -/

/-- Factors that are not larger give a product that is not larger, and the same one only if they
are the same. -/
theorem prod_map_le {α : Type} {f g : α → Nat} {l : List α} (hle : ∀ a ∈ l, f a ≤ g a)
    (hpos : ∀ a ∈ l, 0 < f a) :
    (l.map f).prod ≤ (l.map g).prod ∧
      ((l.map f).prod = (l.map g).prod ↔ ∀ a ∈ l, f a = g a) := by
  induction l with
  | nil => simp
  | cons a l ih =>
    rw [List.forall_mem_cons] at hle hpos
    obtain ⟨hprod, hiff⟩ := ih hle.2 hpos.2
    have hrest : 0 < (l.map f).prod := List.prod_pos (by simpa using hpos.2)
    simp only [List.map_cons, List.prod_cons, List.forall_mem_cons]
    refine ⟨Nat.mul_le_mul hle.1 hprod, ?_⟩
    rw [mul_eq_mul_iff_eq_and_eq_of_pos hle.1 hprod hpos.1 (hrest.trans_le hprod), hiff]

/-- A number that is not seen counts as 0. -/
theorem uint32Of_eq_zero {d : Node} {name : Nat} (h : ¬ d.HasUint32 name) :
    uint32Of (d.attribute name) = 0 := by
  rw [uint32Of.eq_def]
  split
  next v hv =>
    exact absurd ⟨v, hv⟩ h
  · rfl

/-- What a bound that is seen multiplies with. -/
def Node.factor (d : Node) : Nat := if d.bound ≠ 0 then d.bound else 1

theorem Node.factor_pos (d : Node) : 0 < d.factor := by
  rw [Node.factor]
  split
  case isTrue hne =>
    exact Nat.pos_of_ne_zero hne
  · exact Nat.one_pos

/-- The bound of a dimension is the number of elements only if that is its `DW_AT_count`. -/
theorem Node.IsDimension.bound_cases {d : Node} (h : d.IsDimension) {n : Nat}
    (hn : d.elements = some n) :
    d.HasUint32 dwAtCount ∧ d.bound = n ∨
      ¬ d.HasUint32 dwAtCount ∧ (d.bound = 0 ∨ d.bound + 1 = n) := by
  obtain ⟨m, hm, hone, hupper⟩ := h
  obtain rfl := Option.some.inj (hm.symm.trans hn)
  by_cases hcount : d.HasUint32 dwAtCount
  · obtain ⟨v, hv⟩ := hcount
    have hvm : v = m := by simpa [Node.elements, hv, constantOf] using hm
    have hne : v ≠ 0 := by omega
    refine .inl ⟨⟨v, hv⟩, ?_⟩
    rw [Node.bound, hv, uint32Of, boundOf, if_pos hne, hvm]
  · refine .inr ⟨hcount, ?_⟩
    have hzero : uint32Of (d.attribute dwAtCount) = 0 := uint32Of_eq_zero hcount
    have hbound : d.bound = uint32Of (d.attribute dwAtUpperBound) := by
      simp [Node.bound, boundOf, hzero]
    rw [hbound, uint32Of.eq_def]
    split
    next v hv =>
      exact .inr (hupper v (by rw [hv]; rfl))
    · exact .inl rfl

/-- So it multiplies with the number of elements or with less. -/
theorem Node.IsDimension.factor_le {d : Node} (h : d.IsDimension) :
    d.factor ≤ d.elements.getD 0 ∧
      (d.factor = d.elements.getD 0 ↔ d.elements = some 1 ∨ d.HasUint32 dwAtCount) := by
  obtain ⟨n, hn, hone, -⟩ := id h
  rw [hn, Option.getD_some, Option.some_inj, Node.factor]
  rcases h.bound_cases hn with ⟨hcount, hbound⟩ | ⟨hcount, hzero | hless⟩
  · rw [hbound, if_pos (Nat.pos_iff_ne_zero.mp hone)]
    exact ⟨Nat.le_refl n, iff_of_true rfl (.inr hcount)⟩
  · rw [hzero, if_neg (not_not.mpr rfl)]
    exact ⟨hone, by simp [hcount, eq_comm]⟩
  · split
    · exact ⟨by omega, by simp only [hcount, or_false]; omega⟩
    · exact ⟨hone, by simp only [hcount, or_false]; omega⟩

/-- Once there is a product every bound that is seen goes into it. -/
theorem foldl_multiplyBound {ds : List Node} {b : Nat} (hb : b ≠ 0)
    (hlt : b * (ds.map Node.factor).prod < 2 ^ 32) :
    ds.foldl (fun b d => multiplyBound b d.bound) b = b * (ds.map Node.factor).prod := by
  induction ds generalizing b with
  | nil => simp
  | cons d ds ih =>
    rw [List.map_cons, List.prod_cons, ← Nat.mul_assoc] at hlt ⊢
    have hrest : 0 < (ds.map Node.factor).prod := List.prod_pos (by simp [Node.factor_pos])
    have hfits : b * d.factor < 2 ^ 32 := (Nat.le_mul_of_pos_right _ hrest).trans_lt hlt
    have hstep : multiplyBound b d.bound = b * d.factor := by
      by_cases hzero : d.bound = 0
      · simp [multiplyBound, Node.factor, hzero]
      · rw [Node.factor, if_pos hzero] at hfits ⊢
        rw [multiplyBound, if_pos hzero, if_pos hb, Nat.mod_eq_of_lt hfits]
    have hne : b * d.factor ≠ 0 := Nat.mul_ne_zero hb d.factor_pos.ne'
    rw [List.foldl_cons, hstep, ih hne hlt]

/-- **The product of the bounds**, which is 0 if none is seen. -/
theorem foldl_multiplyBound_zero {ds : List Node} (hlt : (ds.map Node.factor).prod < 2 ^ 32) :
    ds.foldl (fun b d => multiplyBound b d.bound) 0 =
      if ∀ d ∈ ds, d.bound = 0 then 0 else (ds.map Node.factor).prod := by
  induction ds with
  | nil => simp
  | cons d ds ih =>
    rw [List.map_cons, List.prod_cons] at hlt ⊢
    rw [List.foldl_cons]
    by_cases hzero : d.bound = 0
    · have hone : d.factor = 1 := by simp [Node.factor, hzero]
      have hstep : multiplyBound 0 d.bound = 0 := by simp [multiplyBound, hzero]
      rw [hone, Nat.one_mul] at hlt ⊢
      rw [hstep, ih hlt]
      simp [hzero]
    · have hfactor : d.factor = d.bound := if_pos hzero
      have hrest : 0 < (ds.map Node.factor).prod := List.prod_pos (by simp [Node.factor_pos])
      have hfits : d.factor < 2 ^ 32 := (Nat.le_mul_of_pos_right _ hrest).trans_lt hlt
      have hstep : multiplyBound 0 d.bound = d.factor := by
        rw [hfactor] at hfits ⊢
        rw [multiplyBound, if_pos hzero, if_neg (not_not.mpr rfl), Nat.one_mul,
          Nat.mod_eq_of_lt hfits]
      rw [hstep, foldl_multiplyBound d.factor_pos.ne' hlt]
      simp [hzero]

/-- **The product of the bounds is the number of elements** if one dimension has a `DW_AT_count`
that is seen and the others have one or have one element. -/
theorem bounds_eq_iff {ds : List Node} (hds : ∀ d ∈ ds, d.IsDimension)
    (hlt : (ds.map fun d => d.elements.getD 0).prod < 2 ^ 32) :
    ds.foldl (fun b d => multiplyBound b d.bound) 0 ≤ (ds.map fun d => d.elements.getD 0).prod ∧
      (ds.foldl (fun b d => multiplyBound b d.bound) 0 =
          (ds.map fun d => d.elements.getD 0).prod ↔
        (∃ d ∈ ds, d.HasUint32 dwAtCount) ∧
          ∀ d ∈ ds, d.elements = some 1 ∨ d.HasUint32 dwAtCount) := by
  have hprod := prod_map_le (fun d hd => (hds d hd).factor_le.1) fun d _ => d.factor_pos
  have hall : (∀ d ∈ ds, d.factor = d.elements.getD 0) ↔
      ∀ d ∈ ds, d.elements = some 1 ∨ d.HasUint32 dwAtCount :=
    forall₂_congr fun d hd => (hds d hd).factor_le.2
  rw [foldl_multiplyBound_zero (hprod.1.trans_lt hlt)]
  split
  case isTrue hzero =>
    have hpos : 0 < (ds.map Node.factor).prod := List.prod_pos (by simp [Node.factor_pos])
    have hne : 0 ≠ (ds.map fun d => d.elements.getD 0).prod := (hpos.trans_le hprod.1).ne
    refine ⟨Nat.zero_le _, iff_of_false hne ?_⟩
    rintro ⟨⟨d, hd, hcount⟩, -⟩
    obtain ⟨n, hn, hone, -⟩ := hds d hd
    rcases (hds d hd).bound_cases hn with ⟨-, hbound⟩ | ⟨hno, -⟩
    · have := hzero d hd
      omega
    · exact hno hcount
  case isFalse hseen =>
    refine ⟨hprod.1, ?_⟩
    rw [hprod.2, hall]
    refine ⟨fun h => ⟨?_, h⟩, fun h => h.2⟩
    obtain ⟨d, hd, hne⟩ := not_forall₂.mp hseen
    refine ⟨d, hd, ?_⟩
    obtain ⟨n, hn, -, -⟩ := hds d hd
    rcases (hds d hd).bound_cases hn with ⟨hcount, -⟩ | ⟨-, hzero | hless⟩
    · exact hcount
    · exact absurd hzero hne
    · refine (h d hd).resolve_left fun hone => ?_
      have := Option.some.inj (hn.symm.trans hone)
      omega

theorem prod_elements_pos {ds : List Node} (hds : ∀ d ∈ ds, d.IsDimension) :
    0 < (ds.map fun d => d.elements.getD 0).prod := by
  refine List.prod_pos (List.forall_mem_map.mpr fun d hd => ?_)
  exact d.factor_pos.trans_le (hds d hd).factor_le.1

/-- With an element that is seen as large as it is, or smaller. -/
theorem bounds_mul_eq_iff {ds : List Node} (hds : ∀ d ∈ ds, d.IsDimension) {seen size : Nat}
    (hle : seen ≤ size) (hlt : (ds.map fun d => d.elements.getD 0).prod * size < 2 ^ 32) :
    ds.foldl (fun b d => multiplyBound b d.bound) 0 * seen % 2 ^ 32 ≤
        (ds.map fun d => d.elements.getD 0).prod * size ∧
      ((ds.map fun d => d.elements.getD 0).prod * size ≠ 0 →
        (ds.foldl (fun b d => multiplyBound b d.bound) 0 * seen % 2 ^ 32 =
            (ds.map fun d => d.elements.getD 0).prod * size ↔
          seen = size ∧ (∃ d ∈ ds, d.HasUint32 dwAtCount) ∧
            ∀ d ∈ ds, d.elements = some 1 ∨ d.HasUint32 dwAtCount)) := by
  have hpos := prod_elements_pos hds
  rcases Nat.eq_zero_or_pos size with rfl | hsize
  · rw [Nat.eq_zero_of_le_zero hle]
    simp
  have hfits := (Nat.le_mul_of_pos_right _ hsize).trans_lt hlt
  obtain ⟨hbounds, hiff⟩ := bounds_eq_iff hds hfits
  have hmul := Nat.mul_le_mul hbounds hle
  rw [Nat.mod_eq_of_lt (hmul.trans_lt hlt), ← hiff]
  refine ⟨hmul, fun _ => ?_⟩
  rw [and_comm]
  rcases Nat.eq_zero_or_pos (ds.foldl (fun b d => multiplyBound b d.bound) 0) with hzero | hne
  · rw [hzero, Nat.zero_mul]
    exact iff_of_false (Nat.mul_pos hpos hsize).ne fun h => hpos.ne h.1
  · exact mul_eq_mul_iff_eq_and_eq_of_pos hbounds hle hne hsize

/-! ### What is seen of a size -/

/-- A `DW_AT_byte_size` that says the size is the size if it is seen. -/
theorem TypeEntry.Agrees.cases {e : TypeEntry} {size : Nat} (h : e.Agrees size) :
    e.node.HasUint32 dwAtByteSize ∧ uint32Of (e.node.attribute dwAtByteSize) = size ∨
      ¬ e.node.HasUint32 dwAtByteSize ∧ uint32Of (e.node.attribute dwAtByteSize) = 0 := by
  by_cases hseen : e.node.HasUint32 dwAtByteSize
  · refine .inl ⟨hseen, ?_⟩
    obtain ⟨v, hv⟩ := hseen
    rw [hv]
    exact h v (by rw [hv]; rfl)
  · exact .inr ⟨hseen, uint32Of_eq_zero hseen⟩

/-- It is seen as the size or as 0. -/
theorem TypeEntry.Agrees.seen {e : TypeEntry} {size : Nat} (h : e.Agrees size) :
    uint32Of (e.node.attribute dwAtByteSize) ≤ size ∧
      (size ≠ 0 → (uint32Of (e.node.attribute dwAtByteSize) = size ↔
        e.node.HasUint32 dwAtByteSize)) := by
  rcases h.cases with ⟨hseen, heq⟩ | ⟨hseen, hzero⟩
  · exact ⟨heq.le, fun _ => iff_of_true heq hseen⟩
  · rw [hzero]
    exact ⟨Nat.zero_le _, fun hne => iff_of_false hne.symm hseen⟩

namespace TypeTree

variable {cus : List CompileUnit}

/-- **What is seen is the size or less**, and it is the size when the entries give it in the way it
is read. -/
theorem seen_eq_iff {t : TypeTree} (h : t.Described cus) (hlt : t.size < 2 ^ 32) :
    t.seen ≤ t.size ∧ (t.size ≠ 0 → (t.seen = t.size ↔ t.Exact)) := by
  induction t with
  | sized e =>
    have hagrees : e.Agrees (sized e).size := fun m hm => by rw [size, hm, Option.getD_some]
    exact hagrees.seen
  | address e => exact ⟨Nat.le_refl _, fun _ => iff_of_true rfl trivial⟩
  | synonym e target ih => exact ih h.2.2.2 hlt
  | restrict e target ih => exact TypeEntry.Agrees.seen h.2.2.1
  | array e children element ih =>
    obtain ⟨-, -, hagrees, ⟨-, -, hdims⟩, -, helement⟩ := h
    have hinner : element.size ≤ (array e children element).size :=
      Nat.le_mul_of_pos_left _ (prod_elements_pos hdims)
    obtain ⟨hle, hiff⟩ := ih helement (hinner.trans_lt hlt)
    obtain ⟨hbounds, hexact⟩ := bounds_mul_eq_iff hdims hle hlt
    by_cases hown : uint32Of (e.node.attribute dwAtByteSize) = 0
    · rw [seen, if_neg (not_not.mpr hown)]
      refine ⟨hbounds, fun hne => ?_⟩
      have hno : ¬ e.node.HasUint32 dwAtByteSize := by
        rcases hagrees.cases with ⟨-, heq⟩ | ⟨hno, -⟩
        · exact absurd (heq.symm.trans hown) hne
        · exact hno
      have hinner : element.size ≠ 0 := fun hzero => hne (by rw [size, hzero, Nat.mul_zero])
      rw [Exact, or_iff_right hno, ← hiff hinner]
      exact hexact hne
    · rw [seen, if_pos hown]
      rcases hagrees.cases with ⟨hseen, heq⟩ | ⟨-, hzero⟩
      · exact ⟨heq.le, fun _ => iff_of_true heq (.inl hseen)⟩
      · exact absurd hzero hown

end TypeTree

/-! ### What `get_sizeof` returns -/

section
variable {cus : List CompileUnit} {cu : CompileUnit}

theorem AtNode.getUint32Attribute {w : Walker} {d : Node} {level : Nat} (hat : AtNode cu w d level)
    (name : Nat) : w.entry.getUint32Attribute name = uint32Of (d.attribute name) := by
  rw [Entry.getUint32Attribute, hat.shows.getAttribute]
  rfl

/-- The body of the loop, at the entry of a dimension or of something else. -/
theorem AtNode.multiply {w : Walker} {d : Node} {level : Nat} (hat : AtNode cu w d level)
    (b : Nat) : w.entry.multiply b =
      if d.decl.tag = dwTagSubrangeType then multiplyBound b d.bound else b := by
  rw [Entry.multiply, hat.shows.getTag, hat.getUint32Attribute, hat.getUint32Attribute]
  rfl

theorem foldl_dimensions (children : Nodes) (b : Nat) :
    children.dimensions.foldl (fun b d => multiplyBound b d.bound) b =
      children.toList.foldl (fun b d =>
        if d.decl.tag = dwTagSubrangeType then multiplyBound b d.bound else b) b := by
  rw [Nodes.dimensions, List.foldl_filter]
  simp

theorem multiplyBounds_nil (cus : List CompileUnit) {found : Bool} {w : Walker}
    (hw : Reached cu found w .nil) (b : Nat) :
    ∃ n₀, ∀ n ≥ n₀, multiplyBounds cus n found w b =
      .ok (Nodes.nil.dimensions.foldl (fun b d => multiplyBound b d.bound) b) := by
  cases hw
  refine ⟨1, fun n hn => ?_⟩
  obtain ⟨n, rfl⟩ := Nat.exists_eq_add_of_le' hn
  rfl

/-- **The loop takes the bounds of the dimensions** of the list it is at the start of. -/
theorem multiplyBounds_children (hcu : cu.Known cus) {ds : Nodes} {off stop : Nat}
    (h : ds.Laid cu off stop) (hlinked : ds.Linked cus cu) {found : Bool} {w : Walker}
    (hw : Reached cu found w ds) (b : Nat) :
    ∃ n₀, ∀ n ≥ n₀, multiplyBounds cus n found w b =
      .ok (ds.dimensions.foldl (fun b d => multiplyBound b d.bound) b) := by
  induction ds generalizing off stop found w b with
  | nil => exact multiplyBounds_nil cus hw b
  | cons d children siblings _ ih =>
    obtain ⟨rfl, level, hat⟩ := hw
    obtain ⟨rfl, hd, hchildren, hsiblings⟩ := h
    obtain ⟨n₁, found, w', hnext, hw'⟩ := moveNext_reaches hcu.size_lt hat hchildren hsiblings
      (hlinked d List.mem_cons_self)
    have hrest : siblings.Linked cus cu := fun d' hd' => hlinked d' (List.mem_cons_of_mem d hd')
    obtain ⟨n₂, hscan⟩ := ih hsiblings hrest hw' (w.entry.multiply b)
    refine ⟨max n₁ n₂ + 1, fun n hn => ?_⟩
    obtain ⟨n, rfl⟩ := Nat.exists_eq_add_of_le' (Nat.le_of_add_left_le hn)
    rw [multiplyBounds, moveNext_mono hnext (by omega)]
    dsimp only [bind, Except.bind]
    rw [hscan n (by omega), foldl_dimensions, foldl_dimensions, hat.multiply]
    rfl

/-- The loop over the children of an array, from `move_down` on. -/
theorem multiplyBounds_below (hcu : cu.Known cus) {w : Walker} {d : Node} {children : Nodes}
    {level : Nat} (hat : AtNode cu w d level) (hbelow : d.Below cu children)
    (hlinked : children.Linked cus cu) :
    ∃ found w' n₀, moveDown w = .ok (found, w') ∧ ∀ n ≥ n₀, multiplyBounds cus n found w' 0 =
      .ok (children.dimensions.foldl (fun b d => multiplyBound b d.bound) 0) := by
  obtain ⟨found, w', hdown, hreached⟩ := moveDown_reaches hcu.size_lt hat hbelow
  rcases hbelow.cases with rfl | hlaid
  · obtain ⟨n₀, hscan⟩ := multiplyBounds_nil cus hreached 0
    exact ⟨found, w', n₀, hdown, hscan⟩
  · obtain ⟨n₀, hscan⟩ := multiplyBounds_children hcu hlaid hlinked hreached 0
    exact ⟨found, w', n₀, hdown, hscan⟩

/-- `get_sizeof` comes to the entry of the type. -/
theorem getSizeof_entry (hunits : ∀ cu ∈ cus, ∀ path, cu.PathTo path → cu.Ready cus)
    {e : TypeEntry} (he : e.IsIn cus) {ref : Reference} (href : e.At cus ref) :
    e.unit.Known cus ∧ ∃ w, AtNode e.unit w e.node 0 ∧
      ∀ n, getSizeof cus (n + 1) ref = sizeofEntry cus n (getSizeof cus n) w := by
  obtain ⟨hcu, path, hpath, hlast⟩ := he
  have hknown := (hunits e.unit hcu path hpath).known
  have hread := hpath.isRead e.node (List.mem_of_getLast? hlast)
  obtain ⟨w, w', hw, hmove, hat⟩ := moveNext_ofReference hknown.size_lt href hread 0
  have hnull : ref ≠ Reference.null := by
    rintro rfl
    cases href
  refine ⟨hknown, w', hat, fun n => ?_⟩
  rw [getSizeof, if_neg hnull, hw]
  dsimp only
  rw [moveNext_mono hmove (Nat.le_add_left 1 n)]

/-- The type an entry refers to. -/
theorem TypeEntry.TypeIs.getReferenceAttribute {e target : TypeEntry} (h : e.TypeIs cus target)
    {w : Walker} {level : Nat} (hat : AtNode e.unit w e.node level) :
    target.At cus (w.entry.getReferenceAttribute dwAtType) := by
  obtain ⟨ref, hattr, hat'⟩ := h
  rw [Entry.getReferenceAttribute, hat.shows.getAttribute, hattr]
  exact hat'

section
variable {w : Walker} {d : Node} {level n : Nat} {sizeof : Reference → Except MoveError Nat}

/-- An entry that is no array, no synonym and no address has a size of its own. -/
theorem AtNode.sizeofEntry_byteSize (hat : AtNode cu w d level)
    (htag : d.decl.tag ∉ [dwTagArrayType, dwTagTypedef, dwTagVolatileType, dwTagConstType,
      dwTagPointerType, dwTagReferenceType]) :
    sizeofEntry cus n sizeof w = .ok (uint32Of (d.attribute dwAtByteSize)) := by
  simp only [List.mem_cons, List.not_mem_nil, or_false, not_or] at htag
  obtain ⟨harray, htypedef, hvolatile, hconst, hpointer, hreference⟩ := htag
  simp [sizeofEntry, hat.shows.getTag, hat.getUint32Attribute, *]
  rfl

/-- An entry for a pointer or a reference has the size of an address. -/
theorem AtNode.sizeofEntry_address (hat : AtNode cu w d level)
    (htag : d.decl.tag = dwTagPointerType ∨ d.decl.tag = dwTagReferenceType) :
    sizeofEntry cus n sizeof w = .ok Read.addrsize := by
  have hne : d.decl.tag ≠ dwTagArrayType ∧ ¬ (d.decl.tag = dwTagTypedef ∨
      d.decl.tag = dwTagVolatileType ∨ d.decl.tag = dwTagConstType) := by
    rcases htag with htag | htag
    · rw [htag]
      decide
    · rw [htag]
      decide
  rw [sizeofEntry, hat.shows.getTag, if_neg hne.1, if_neg hne.2, if_pos htag]
  rfl

/-- An entry for another name or for a qualifier has the size of its type. -/
theorem AtNode.sizeofEntry_synonym (hat : AtNode cu w d level)
    (htag : d.decl.tag = dwTagTypedef ∨ d.decl.tag = dwTagVolatileType ∨
      d.decl.tag = dwTagConstType) :
    sizeofEntry cus n sizeof w = sizeof (w.entry.getReferenceAttribute dwAtType) := by
  have hne : d.decl.tag ≠ dwTagArrayType := by
    rcases htag with htag | htag | htag
    all_goals
      rw [htag]
      decide
  rw [sizeofEntry, hat.shows.getTag, if_neg hne, if_pos htag]

/-- An entry for an array has the product for its size, if it has none of its own. -/
theorem AtNode.sizeofEntry_array (hat : AtNode cu w d level)
    (htag : d.decl.tag = dwTagArrayType) {elementSize : Nat} {found : Bool} {w' : Walker}
    (helement : sizeof (w.entry.getReferenceAttribute dwAtType) = .ok elementSize)
    (hdown : moveDown w = .ok (found, w')) {bounds : Nat}
    (hbounds : multiplyBounds cus n found w' 0 = .ok bounds) :
    sizeofEntry cus n sizeof w =
      .ok (if uint32Of (d.attribute dwAtByteSize) ≠ 0 then uint32Of (d.attribute dwAtByteSize)
        else bounds * elementSize % 2 ^ 32) := by
  rw [sizeofEntry, hat.shows.getTag, hat.getUint32Attribute, if_pos htag]
  split
  · rfl
  · rw [helement, hdown]
    dsimp only [bind, Except.bind]
    rw [hbounds]
    rfl

end

/-- **`get_sizeof` returns what is seen** of a type that is described. -/
theorem getSizeof_seen (hunits : ∀ cu ∈ cus, ∀ path, cu.PathTo path → cu.Ready cus) {t : TypeTree}
    (h : t.Described cus) {ref : Reference} (href : t.entry.At cus ref) :
    ∃ n₀, ∀ n ≥ n₀, getSizeof cus n ref = .ok t.seen := by
  induction t generalizing ref with
  | sized e =>
    obtain ⟨he, htag, -⟩ := h
    obtain ⟨-, w, hat, hsizeof⟩ := getSizeof_entry hunits he href
    refine ⟨1, fun n hn => ?_⟩
    obtain ⟨n, rfl⟩ := Nat.exists_eq_add_of_le' hn
    rw [hsizeof, hat.sizeofEntry_byteSize, TypeTree.seen]
    rcases htag with htag | htag | htag | htag
    all_goals
      rw [htag]
      decide
  | address e =>
    obtain ⟨he, htag⟩ := h
    obtain ⟨-, w, hat, hsizeof⟩ := getSizeof_entry hunits he href
    refine ⟨1, fun n hn => ?_⟩
    obtain ⟨n, rfl⟩ := Nat.exists_eq_add_of_le' hn
    rw [hsizeof, hat.sizeofEntry_address htag, TypeTree.seen]
  | synonym e target ih =>
    obtain ⟨he, htag, htype, htarget⟩ := h
    obtain ⟨-, w, hat, hsizeof⟩ := getSizeof_entry hunits he href
    obtain ⟨n₀, hn₀⟩ := ih htarget (htype.getReferenceAttribute hat)
    refine ⟨n₀ + 1, fun n hn => ?_⟩
    obtain ⟨n, rfl⟩ := Nat.exists_eq_add_of_le' (Nat.le_of_add_left_le hn)
    rw [hsizeof, hat.sizeofEntry_synonym htag, hn₀ n (by omega), TypeTree.seen]
  | restrict e target ih =>
    obtain ⟨he, htag, -⟩ := h
    obtain ⟨-, w, hat, hsizeof⟩ := getSizeof_entry hunits he href
    refine ⟨1, fun n hn => ?_⟩
    obtain ⟨n, rfl⟩ := Nat.exists_eq_add_of_le' hn
    rw [hsizeof, hat.sizeofEntry_byteSize (by rw [htag]; decide), TypeTree.seen]
  | array e children element ih =>
    obtain ⟨he, htag, -, ⟨hbelow, hlinked, -⟩, htype, helement⟩ := h
    obtain ⟨hknown, w, hat, hsizeof⟩ := getSizeof_entry hunits he href
    obtain ⟨n₁, hn₁⟩ := ih helement (htype.getReferenceAttribute hat)
    obtain ⟨found, w', n₂, hdown, hn₂⟩ := multiplyBounds_below hknown hat hbelow hlinked
    refine ⟨max n₁ n₂ + 1, fun n hn => ?_⟩
    obtain ⟨n, rfl⟩ := Nat.exists_eq_add_of_le' (Nat.le_of_add_left_le hn)
    rw [hsizeof, hat.sizeofEntry_array htag (hn₁ n (by omega)) hdown (hn₂ n (by omega)),
      TypeTree.seen]

end

/-! ### The size of a type -/

section
variable {fuel : Nat} {p : Platform} {calls : List AddCall} {s : LoadState}

/-- **`get_sizeof` returns the size of a type** exactly if that is 0, or the entries give it in the
way it is read: every size and, but for dimensions of one element, every number of elements is a
number of 32 bits without a sign, in a `DW_AT_byte_size` and a `DW_AT_count`, and one dimension of
each array has a `DW_AT_count`.  It returns whatever they are. -/
theorem getSizeof_eq_iff (hs : LoadState.addAll fuel p {} calls = .ok s)
    (hmem : ∀ cu ∈ s.getCompileUnits, (cu.linkObject.getSection .info).InUserSpace)
    {t : TypeTree} (ht : t.Described s.getCompileUnits) (hsize : t.size < 2 ^ 32) {ref : Reference}
    (href : t.entry.At s.getCompileUnits ref) :
    ∃ v, (∃ n₀, ∀ n ≥ n₀, getSizeof s.getCompileUnits n ref = .ok v) ∧
      (v = t.size ↔ t.size = 0 ∨ t.Exact) := by
  refine ⟨t.seen, getSizeof_seen (ready_of_pathTo hs hmem) ht href, ?_⟩
  obtain ⟨hle, hiff⟩ := TypeTree.seen_eq_iff ht hsize
  by_cases hzero : t.size = 0
  · rw [hzero] at hle ⊢
    exact iff_of_true (Nat.eq_zero_of_le_zero hle) (.inl rfl)
  · rw [hiff hzero, or_iff_right hzero]

end

/-! ### Two arrays -/

/-- The base type in the unit with a namespace. -/
def scopeInt (cu : CompileUnit) : Node :=
  Die.node .four scopeAbbrevs cu { code := .byte 5, operands := [.data1 4] } 26 .nil

/-- A dimension with three elements. -/
def threeElements : Die := { code := .byte 7, operands := [.data1 3] }

/-- A dimension with an upper bound of two. -/
def upToTwo : Die := { code := .byte 8, operands := [.data1 2] }

/-- A dimension as an entry of the unit. -/
def dimensionNode (cu : CompileUnit) (off : Nat) (dimension : Die) : Node :=
  dimension.node .four scopeAbbrevs cu off .nil

/-- An array with such a dimension. -/
def scopeArray (cu : CompileUnit) (off : Nat) (dimension : Die) : Node :=
  Die.node .four scopeAbbrevs cu { code := .byte 6, operands := [.ref4 26] } off
    (.cons dimension .nil .nil)

/-- The type of an array of `int` with this dimension. -/
def scopeArrayType (cu : CompileUnit) (off : Nat) (dimension : Die) : TypeTree :=
  .array ⟨cu, scopeArray cu off dimension⟩ (.cons (dimensionNode cu (off + 5) dimension) .nil .nil)
    (.sized ⟨cu, scopeInt cu⟩)

theorem scope_arrays_below {cu : CompileUnit} (h : IsScopeUnit cu) :
    (scopeArray cu 28 threeElements).Below cu
        (.cons (dimensionNode cu 33 threeElements) .nil .nil) ∧
      (scopeArray cu 36 upToTwo).Below cu (.cons (dimensionNode cu 41 upToTwo) .nil .nil) := by
  obtain ⟨-, -, -, hvariable⟩ := (scope_below h).2
  obtain ⟨-, -, -, -, -, -, harrays⟩ := hvariable
  obtain ⟨-, -, hthree, -, -, htwo, -⟩ := harrays
  exact ⟨hthree, htwo⟩

section
variable {cus : List CompileUnit} {cu : CompileUnit}

theorem scopeArrayType_described (hin : cu ∈ cus) (hknown : cu.Known cus) (h : IsScopeUnit cu)
    {off : Nat} {dimension : Die} (hpath : (scopeNodes cu).PathTo [scopeArray cu off dimension])
    (hbelow : (scopeArray cu off dimension).Below cu
      (.cons (dimensionNode cu (off + 5) dimension) .nil .nil))
    (hsibling : (dimensionNode cu (off + 5) dimension).attribute dwAtSibling = none)
    (hdimension : (dimensionNode cu (off + 5) dimension).IsDimension) :
    (scopeArrayType cu off dimension).Described cus := by
  refine ⟨⟨hin, _, scope_pathTo h (.inr hpath), rfl⟩, rfl, ?_, ⟨hbelow, ?_, ?_⟩, ?_, ?_⟩
  · intro m hm
    cases hm
  · intro d hd ref href
    obtain rfl := List.mem_singleton.mp hd
    rw [hsibling] at href
    cases href
  · intro d hd
    obtain rfl := List.mem_singleton.mp (List.mem_of_mem_filter hd)
    exact hdimension
  · exact ⟨cu.makeReference 26, rfl, hknown.resolve (show 26 < 2 ^ 32 by decide)⟩
  · exact ⟨⟨hin, _, scope_pathTo h (.inr (.next (.next .here))), rfl⟩, .inl rfl, rfl⟩

/-- The array with three elements is described. -/
theorem threeElements_described (hin : cu ∈ cus) (hknown : cu.Known cus) (h : IsScopeUnit cu) :
    (scopeArrayType cu 28 threeElements).Described cus := by
  refine scopeArrayType_described hin hknown h (.next (.next (.next .here)))
    (scope_arrays_below h).1 rfl ⟨3, rfl, by decide, ?_⟩
  intro u hu
  cases hu

/-- The array with the upper bound 2 is described. -/
theorem upToTwo_described (hin : cu ∈ cus) (hknown : cu.Known cus) (h : IsScopeUnit cu) :
    (scopeArrayType cu 36 upToTwo).Described cus := by
  refine scopeArrayType_described hin hknown h (.next (.next (.next (.next .here))))
    (scope_arrays_below h).2 rfl ⟨3, rfl, by decide, ?_⟩
  intro u hu
  obtain rfl : 2 = u := Option.some.inj hu
  rfl

end

theorem threeElements_exact (cu : CompileUnit) : (scopeArrayType cu 28 threeElements).Exact := by
  have hcount : (dimensionNode cu 33 threeElements).HasUint32 dwAtCount := ⟨3, rfl⟩
  have hdimensions : (Nodes.cons (dimensionNode cu 33 threeElements) .nil .nil).dimensions =
      [dimensionNode cu 33 threeElements] := rfl
  refine .inr ⟨⟨4, rfl⟩, ?_⟩
  rw [hdimensions]
  exact ⟨⟨_, List.mem_cons_self, hcount⟩, List.forall_mem_singleton.mpr (.inr hcount)⟩

/-- An array of three elements of four bytes. -/
theorem getSizeof_eq_iff_count :
    ∃ s cu n₀, LoadState.addAll 60 scopePlatform {} nestedCalls = .ok s ∧
      s.getCompileUnits = [cu] ∧ (scopeArrayType cu 28 threeElements).size = 12 ∧
      ∀ n ≥ n₀, getSizeof s.getCompileUnits n (cu.makeReference 28) = .ok 12 := by
  obtain ⟨s, cu, hs, hunits, hcu, hin, hmem⟩ := loaded_scope
  have hknown := (ready_of_pathTo hs hmem cu hin _ (scope_pathTo hcu (.inl rfl))).known
  have href : (scopeArrayType cu 28 threeElements).entry.At s.getCompileUnits
      (cu.makeReference 28) := hknown.resolve (show 28 < 2 ^ 32 by decide)
  have hsize : (scopeArrayType cu 28 threeElements).size = 12 := rfl
  obtain ⟨v, ⟨n₀, hv⟩, hiff⟩ := getSizeof_eq_iff hs hmem (threeElements_described hin hknown hcu)
    (by rw [hsize]; decide) href
  rw [hiff.mpr (.inr (threeElements_exact cu))] at hv
  exact ⟨s, cu, n₀, hs, hunits, hsize, hv⟩

/-- The same array with its upper bound: two elements are counted. -/
theorem getSizeof_upper_bound :
    ∃ s cu n₀, LoadState.addAll 60 scopePlatform {} nestedCalls = .ok s ∧
      s.getCompileUnits = [cu] ∧ (scopeArrayType cu 36 upToTwo).Described s.getCompileUnits ∧
      (scopeArrayType cu 36 upToTwo).size = 12 ∧
      (∀ n ≥ n₀, getSizeof s.getCompileUnits n (cu.makeReference 36) = .ok 8) ∧
      ¬ ∃ n₁, ∀ n ≥ n₁, getSizeof s.getCompileUnits n (cu.makeReference 36) =
        .ok (scopeArrayType cu 36 upToTwo).size := by
  obtain ⟨s, cu, hs, hunits, hcu, hin, hmem⟩ := loaded_scope
  have hunits' := ready_of_pathTo hs hmem
  have hknown := (hunits' cu hin _ (scope_pathTo hcu (.inl rfl))).known
  have hdescribed := upToTwo_described hin hknown hcu
  have href : (scopeArrayType cu 36 upToTwo).entry.At s.getCompileUnits (cu.makeReference 36) :=
    hknown.resolve (show 36 < 2 ^ 32 by decide)
  obtain ⟨n₀, hv⟩ := getSizeof_seen hunits' hdescribed href
  have hseen : (scopeArrayType cu 36 upToTwo).seen = 8 := rfl
  have hsize : (scopeArrayType cu 36 upToTwo).size = 12 := rfl
  rw [hseen] at hv
  refine ⟨s, cu, n₀, hs, hunits, hdescribed, hsize, hv, ?_⟩
  rintro ⟨n₁, hsame⟩
  have heq := (hv _ (Nat.le_max_left n₀ n₁)).symm.trans (hsame _ (Nat.le_max_right n₀ n₁))
  rw [hsize] at heq
  cases heq

end NovaProva.Dwarf
