import NovaProva.Spiegel.Sizeof
import NovaProva.Tree.Discovery

/-!
# Spiegel — Signature

`type_t::get_classification`, `function_t::get_return_type` and `function_t::get_parameter_types`,
by which discovery tells a test from another function with the name of one.

* `getClassification`, `getParameterTypes`: the code, on the entries.
* `Names`: the entry a reference to a type comes to, behind its typedefs and qualifiers.
* `getClassification_eq`, `getParameterTypes_eq`: what they return of the entries there are.
* `declared_by_signature_iff`: which functions are declared as tests and as fixtures.
-/

namespace NovaProva.Dwarf

open Walker

/-- `DW_TAG_class_type`. -/
def dwTagClassType : Nat := 0x02
/-- `DW_TAG_formal_parameter`. -/
def dwTagFormalParameter : Nat := 0x05
/-- `DW_TAG_unspecified_parameters`. -/
def dwTagUnspecifiedParameters : Nat := 0x18

/-- `DW_AT_encoding`. -/
def dwAtEncoding : Nat := 0x3e

/-- `DW_ATE_float`. -/
def dwAteFloat : Nat := 0x4
/-- `DW_ATE_signed`. -/
def dwAteSigned : Nat := 0x5
/-- `DW_ATE_signed_char`. -/
def dwAteSignedChar : Nat := 0x6
/-- `DW_ATE_unsigned`. -/
def dwAteUnsigned : Nat := 0x7
/-- `DW_ATE_unsigned_char`. -/
def dwAteUnsignedChar : Nat := 0x8

/-! ### The code -/

/-- `TC_INVALID`. -/
def tcInvalid : Nat := 0

/-- `TC_MAJOR_ARRAY`. -/
def tcMajorArray : Nat := 3 <<< 8
/-- `TC_MAJOR_INTEGER`. -/
def tcMajorInteger : Nat := 4 <<< 8
/-- `TC_MAJOR_FLOAT`. -/
def tcMajorFloat : Nat := 5 <<< 8
/-- `TC_MAJOR_COMPOUND`. -/
def tcMajorCompound : Nat := 6 <<< 8

/-- `_TC_UNSIGNED`. -/
def tcUnsigned : Nat := 0 <<< 7
/-- `_TC_SIGNED`. -/
def tcSigned : Nat := 1 <<< 7

/-- `TC_REFERENCE`. -/
def tcReference : Nat := 2 <<< 8 ||| 1
/-- `TC_ARRAY`. -/
def tcArray : Nat := tcMajorArray ||| 0
/-- `TC_STRUCT`. -/
def tcStruct : Nat := tcMajorCompound ||| 0
/-- `TC_UNION`. -/
def tcUnion : Nat := tcMajorCompound ||| 1
/-- `TC_CLASS`. -/
def tcClass : Nat := tcMajorCompound ||| 2

/-- The `switch` over the encoding of a base type. -/
def classifyEncoding (encoding byteSize : Nat) : Nat :=
  if encoding = dwAteFloat then tcMajorFloat ||| byteSize
  else if encoding = dwAteSigned ∨ encoding = dwAteSignedChar then
    tcMajorInteger ||| tcSigned ||| byteSize
  else if encoding = dwAteUnsigned ∨ encoding = dwAteUnsignedChar then
    tcMajorInteger ||| tcUnsigned ||| byteSize
  else tcInvalid

/-- The `switch` of `get_classification` over the tag, but for typedefs and qualifiers; an
enumeration without a size has that of an `int`. -/
def classifyTag (tag encoding byteSize : Nat) : Nat :=
  if tag = dwTagBaseType then classifyEncoding encoding byteSize
  else if tag = dwTagPointerType then tcPointer
  else if tag = dwTagReferenceType then tcReference
  else if tag = dwTagStructureType then tcStruct
  else if tag = dwTagUnionType then tcUnion
  else if tag = dwTagClassType then tcClass
  else if tag = dwTagEnumerationType then
    tcMajorInteger ||| tcSigned ||| if byteSize = 0 then 4 else byteSize
  else if tag = dwTagArrayType then tcArray
  else tcInvalid

/-- A typedef, `volatile` or `const`. -/
def IsSynonym (tag : Nat) : Prop :=
  tag = dwTagTypedef ∨ tag = dwTagVolatileType ∨ tag = dwTagConstType

instance (tag : Nat) : Decidable (IsSynonym tag) := inferInstanceAs (Decidable (_ ∨ _ ∨ _))

section
variable (cus : List CompileUnit)

/-- `get_classification` of the type at a reference. -/
def getClassification : Nat → Reference → Except MoveError Nat
  | 0,     _   => .error .outOfFuel
  | n + 1, ref =>
    if ref = Reference.null then .ok tcVoid
    else
      match ofReference cus ref with
      | none   => .error .noCompileUnit
      | some w =>
        match moveNext cus (n + 1) w with
        | .error e       => .error e
        | .ok (false, _) => .ok tcInvalid
        | .ok (true, w') =>
          if IsSynonym w'.entry.getTag then
            getClassification n (w'.entry.getReferenceAttribute dwAtType)
          else
            .ok (classifyTag w'.entry.getTag (w'.entry.getUint32Attribute dwAtEncoding)
              (w'.entry.getUint32Attribute dwAtByteSize))

/-- `get_return_type` of the function at a reference; an entry that is not there is looked at. -/
def getReturnType (n : Nat) (ref : Reference) : Except MoveError (Option Reference) :=
  match ofReference cus ref with
  | none   => .error .noCompileUnit
  | some w =>
    match moveNext cus n w with
    | .error e       => .error e
    | .ok (false, _) => .ok none
    | .ok (true, w') => .ok (some (w'.entry.getReferenceAttribute dwAtType))

/-- The loop of `get_parameter_types`, from the entry the walker is at, if `found`. -/
def scanParameters : Nat → Bool → Walker → Except MoveError (List Reference)
  | 0,     _,     _ => .error .outOfFuel
  | _ + 1, false, _ => .ok []
  | n + 1, true,  w =>
    if w.entry.getTag = dwTagUnspecifiedParameters then .ok []
    else do
      let next ← moveNext cus n w
      let rest ← scanParameters n next.1 next.2
      return if w.entry.getTag = dwTagFormalParameter then
        w.entry.getReferenceAttribute dwAtType :: rest else rest

/-- `get_parameter_types` of the function at a reference. -/
def getParameterTypes (n : Nat) (ref : Reference) : Except MoveError (List Reference) :=
  match ofReference cus ref with
  | none   => .error .noCompileUnit
  | some w => do
      let moved ← moveNext cus n w
      let down ← moveDown moved.2
      scanParameters cus n down.1 down.2

end

/-! ### What a type is -/

/-- What `get_reference_attribute` sees of an attribute. -/
def referenceOf : Option Value → Reference
  | some (.ref ref) => ref
  | _               => Reference.null

/-- A reference to a type comes to an entry behind its typedefs and qualifiers, or to `void`. -/
inductive Names (cus : List CompileUnit) : Reference → Option TypeEntry → Prop where
  | void : Names cus Reference.null none
  | entry {ref : Reference} {e : TypeEntry} (he : e.IsIn cus) (hat : e.At cus ref)
      (htag : ¬ IsSynonym e.node.decl.tag) : Names cus ref (some e)
  | synonym {ref : Reference} {e : TypeEntry} {target : Option TypeEntry} (he : e.IsIn cus)
      (hat : e.At cus ref) (htag : IsSynonym e.node.decl.tag)
      (htarget : Names cus (referenceOf (e.node.attribute dwAtType)) target) : Names cus ref target

/-- What is returned for it. -/
def classificationOf : Option TypeEntry → Nat
  | none   => tcVoid
  | some e => classifyTag e.node.decl.tag (uint32Of (e.node.attribute dwAtEncoding))
      (uint32Of (e.node.attribute dwAtByteSize))

/-- A signed integer or a signed character of so many bytes. -/
def Node.IsSignedBase (d : Node) (size : Nat) : Prop :=
  d.decl.tag = dwTagBaseType ∧ uint32Of (d.attribute dwAtByteSize) = size ∧
    (uint32Of (d.attribute dwAtEncoding) = dwAteSigned ∨
      uint32Of (d.attribute dwAtEncoding) = dwAteSignedChar)

/-- An enumeration of so many bytes, or of a size that is not seen. -/
def Node.IsEnumeration (d : Node) (size : Nat) : Prop :=
  d.decl.tag = dwTagEnumerationType ∧
    (uint32Of (d.attribute dwAtByteSize) = size ∨ uint32Of (d.attribute dwAtByteSize) = 0)

/-- A base type or an enumeration has a size that the bits of a classification have room for. -/
def Node.SizeFits (d : Node) : Prop :=
  d.decl.tag = dwTagBaseType ∨ d.decl.tag = dwTagEnumerationType →
    uint32Of (d.attribute dwAtByteSize) < 128

/-- The types of the parameters, up to an ellipsis. -/
def Nodes.parameterTypes (children : Nodes) : List Reference :=
  ((children.toList.takeWhile (·.decl.tag ≠ dwTagUnspecifiedParameters)).filter
    (·.decl.tag = dwTagFormalParameter)).map fun d => referenceOf (d.attribute dwAtType)

/-! ### Classifications -/

theorem or_ne {a b x k : Nat} (ha : a.testBit k = true) (hb : b.testBit k = false) :
    a ||| x ≠ b := by
  intro h
  have hbit := congrArg (·.testBit k) h
  simp [Nat.testBit_or, ha, hb] at hbit

/-- Of sizes below 128 only 4 is that of an `int`. -/
theorem signed_or_eq_iff : ∀ size < 128,
    (tcMajorInteger ||| tcSigned ||| size = tcSignedInt ↔ size = 4) ∧
      tcMajorInteger ||| tcUnsigned ||| size ≠ tcSignedInt := by
  decide +kernel

section
variable {tag encoding byteSize : Nat}

/-- No base type is `void`. -/
theorem classifyEncoding_ne_void : classifyEncoding encoding byteSize ≠ tcVoid := by
  rw [classifyEncoding]
  split
  · exact or_ne (k := 10) rfl rfl
  · split
    · exact or_ne (k := 10) rfl rfl
    · split
      · exact or_ne (k := 10) rfl rfl
      · decide

/-- No entry is taken for `void`. -/
theorem classifyTag_ne_void : classifyTag tag encoding byteSize ≠ tcVoid := by
  rw [classifyTag]
  split_ifs
  · exact classifyEncoding_ne_void
  all_goals first
    | decide
    | exact or_ne (k := 10) rfl rfl

/-- A base type that is taken for a signed `int` is a signed one of four bytes. -/
theorem classifyEncoding_signedInt_iff (hsize : byteSize < 128) :
    classifyEncoding encoding byteSize = tcSignedInt ↔
      byteSize = 4 ∧ (encoding = dwAteSigned ∨ encoding = dwAteSignedChar) := by
  obtain ⟨hsigned, hunsigned⟩ := signed_or_eq_iff byteSize hsize
  rw [classifyEncoding]
  split_ifs with hfloat henc henc'
  · refine iff_of_false (or_ne (k := 8) rfl rfl) ?_
    rw [hfloat]
    exact fun h => absurd h.2 (by decide)
  · simp [hsigned, henc]
  · simp [hunsigned, henc]
  · simp [henc, show tcInvalid ≠ tcSignedInt by decide]

/-- Any other entry has one of these. -/
theorem classifyTag_mem (hbase : tag ≠ dwTagBaseType) (henum : tag ≠ dwTagEnumerationType) :
    classifyTag tag encoding byteSize ∈
      [tcPointer, tcReference, tcStruct, tcUnion, tcClass, tcArray, tcInvalid] := by
  rw [classifyTag, if_neg hbase]
  split_ifs <;> simp

/-- The entries that are taken for an `int`. -/
theorem classifyTag_signedInt_iff
    (hsize : tag = dwTagBaseType ∨ tag = dwTagEnumerationType → byteSize < 128) :
    classifyTag tag encoding byteSize = tcSignedInt ↔
      tag = dwTagBaseType ∧ byteSize = 4 ∧ (encoding = dwAteSigned ∨ encoding = dwAteSignedChar) ∨
        tag = dwTagEnumerationType ∧ (byteSize = 4 ∨ byteSize = 0) := by
  by_cases hbase : tag = dwTagBaseType
  · subst hbase
    rw [classifyTag, if_pos rfl, classifyEncoding_signedInt_iff (hsize (.inl rfl))]
    simp [show dwTagBaseType ≠ dwTagEnumerationType by decide]
  · by_cases henum : tag = dwTagEnumerationType
    · subst henum
      have hcode : classifyTag dwTagEnumerationType encoding byteSize =
          tcMajorInteger ||| tcSigned ||| if byteSize = 0 then 4 else byteSize := rfl
      rw [hcode]
      by_cases hzero : byteSize = 0
      · simp [hzero, show tcMajorInteger ||| tcSigned ||| 4 = tcSignedInt from rfl]
      · simp [hbase, hzero, (signed_or_eq_iff byteSize (hsize (.inr rfl))).1]
    · have hmem : classifyTag tag encoding byteSize ∈ _ := classifyTag_mem hbase henum
      have hne : tcSignedInt ∉
          [tcPointer, tcReference, tcStruct, tcUnion, tcClass, tcArray, tcInvalid] := by decide
      refine iff_of_false (fun heq => hne (heq ▸ hmem)) ?_
      simp [hbase, henum]

end

/-- **No type but `void` is taken for it,** -/
theorem classificationOf_void_iff {target : Option TypeEntry} :
    classificationOf target = tcVoid ↔ target = none := by
  cases target with
  | none => exact iff_of_true rfl rfl
  | some e => exact iff_of_false classifyTag_ne_void (by simp)

/-- Of the types whose sizes fit, only a signed one of four bytes and an enumeration of four bytes
or of a size that is not seen have the class of `int`. -/
theorem classificationOf_signedInt_iff {e : TypeEntry} (hsize : e.node.SizeFits) :
    classificationOf (some e) = tcSignedInt ↔ e.node.IsSignedBase 4 ∨ e.node.IsEnumeration 4 :=
  classifyTag_signedInt_iff hsize

/-! ### Reading the entries -/

section Reading

variable {cus : List CompileUnit} {cu : CompileUnit}

/-- The walker shows the references of its entry. -/
theorem AtNode.getReferenceAttribute {w : Walker} {d : Node} {level : Nat}
    (hat : AtNode cu w d level) (name : Nat) :
    w.entry.getReferenceAttribute name = referenceOf (d.attribute name) := by
  rw [Entry.getReferenceAttribute, hat.shows.getAttribute]
  rfl

/-- A walker made for the reference to an entry comes to the entry. -/
theorem TypeEntry.IsIn.walker (hunits : ∀ cu ∈ cus, ∀ path, cu.PathTo path → cu.Ready cus)
    {e : TypeEntry} (he : e.IsIn cus) {ref : Reference} (href : e.At cus ref) :
    e.unit.Known cus ∧ ref ≠ Reference.null ∧ ∃ w w', ofReference cus ref = some w ∧
      (∀ n, moveNext cus (n + 1) w = .ok (true, w')) ∧ AtNode e.unit w' e.node 0 := by
  obtain ⟨hcu, path, hpath, hlast⟩ := he
  have hknown := (hunits e.unit hcu path hpath).known
  have hread := hpath.isRead e.node (List.mem_of_getLast? hlast)
  obtain ⟨w, w', hw, hmove, hat⟩ := moveNext_ofReference hknown.size_lt href hread 0
  refine ⟨hknown, ?_, w, w', hw, fun n => moveNext_mono hmove (Nat.le_add_left 1 n), hat⟩
  rintro rfl
  cases href

/-- **`get_classification`** of a type that comes to an entry or to `void`. -/
theorem getClassification_eq (hunits : ∀ cu ∈ cus, ∀ path, cu.PathTo path → cu.Ready cus)
    {ref : Reference} {target : Option TypeEntry} (h : Names cus ref target) :
    ∃ n₀, ∀ n ≥ n₀, getClassification cus n ref = .ok (classificationOf target) := by
  induction h with
  | void =>
      refine ⟨1, fun n hn => ?_⟩
      obtain ⟨n, rfl⟩ := Nat.exists_eq_add_of_le' hn
      rw [getClassification, if_pos rfl]
      rfl
  | @entry ref e he hat htag =>
      obtain ⟨-, hne, w, w', hw, hmove, hnode⟩ := he.walker hunits hat
      refine ⟨1, fun n hn => ?_⟩
      obtain ⟨n, rfl⟩ := Nat.exists_eq_add_of_le' hn
      rw [getClassification, if_neg hne, hw]
      dsimp only
      rw [hmove]
      dsimp only
      rw [hnode.shows.getTag, if_neg htag, hnode.getUint32Attribute, hnode.getUint32Attribute]
      rfl
  | @synonym ref e target he hat htag _ ih =>
      obtain ⟨-, hne, w, w', hw, hmove, hnode⟩ := he.walker hunits hat
      obtain ⟨n₀, hn₀⟩ := ih
      refine ⟨n₀ + 1, fun n hn => ?_⟩
      obtain ⟨n, rfl⟩ := Nat.exists_eq_add_of_le' (Nat.le_of_add_left_le hn)
      rw [getClassification, if_neg hne, hw]
      dsimp only
      rw [hmove]
      dsimp only
      rw [hnode.shows.getTag, if_pos htag, hnode.getReferenceAttribute, hn₀ n (by omega)]

/-- `get_return_type` refers to the `DW_AT_type` of the entry. -/
theorem getReturnType_eq (hunits : ∀ cu ∈ cus, ∀ path, cu.PathTo path → cu.Ready cus)
    {e : TypeEntry} (he : e.IsIn cus) {ref : Reference} (href : e.At cus ref) (n : Nat) :
    getReturnType cus (n + 1) ref = .ok (some (referenceOf (e.node.attribute dwAtType))) := by
  obtain ⟨-, -, w, w', hw, hmove, hnode⟩ := he.walker hunits href
  rw [getReturnType, hw]
  dsimp only
  rw [hmove]
  dsimp only
  rw [hnode.getReferenceAttribute]

/-- The parameters among the entries, up to a `...`. -/
theorem Nodes.parameterTypes_cons (d : Node) (children siblings : Nodes) :
    (Nodes.cons d children siblings).parameterTypes =
      if d.decl.tag = dwTagUnspecifiedParameters then []
      else if d.decl.tag = dwTagFormalParameter then
        referenceOf (d.attribute dwAtType) :: siblings.parameterTypes
      else siblings.parameterTypes := by
  rw [Nodes.parameterTypes, Nodes.toList, List.takeWhile_cons]
  split_ifs with hellipsis hparameter
  all_goals simp_all [Nodes.parameterTypes]

/-- The loop ends behind the last child. -/
theorem scanParameters_nil (cus : List CompileUnit) {found : Bool} {w : Walker}
    (hw : Reached cu found w .nil) :
    ∃ n₀, ∀ n ≥ n₀, scanParameters cus n found w = .ok Nodes.nil.parameterTypes := by
  cases hw
  refine ⟨1, fun n hn => ?_⟩
  obtain ⟨n, rfl⟩ := Nat.exists_eq_add_of_le' hn
  rfl

/-- **The loop takes the types of the parameters** of the list it is at the start of. -/
theorem scanParameters_children (hcu : cu.Known cus) {ds : Nodes} {off stop : Nat}
    (h : ds.Laid cu off stop) (hlinked : ds.Linked cus cu) {found : Bool} {w : Walker}
    (hw : Reached cu found w ds) :
    ∃ n₀, ∀ n ≥ n₀, scanParameters cus n found w = .ok ds.parameterTypes := by
  induction ds generalizing off stop found w with
  | nil => exact scanParameters_nil cus hw
  | cons d children siblings _ ih =>
      obtain ⟨rfl, level, hat⟩ := hw
      obtain ⟨rfl, hd, hchildren, hsiblings⟩ := h
      obtain ⟨n₁, found, w', hnext, hw'⟩ := moveNext_reaches hcu.size_lt hat hchildren hsiblings
        (hlinked d List.mem_cons_self)
      obtain ⟨n₂, hscan⟩ := ih hsiblings (fun d' hd' => hlinked d' (List.mem_cons_of_mem d hd')) hw'
      refine ⟨max n₁ n₂ + 1, fun n hn => ?_⟩
      obtain ⟨n, rfl⟩ := Nat.exists_eq_add_of_le' (Nat.le_of_add_left_le hn)
      rw [scanParameters, hat.shows.getTag, Nodes.parameterTypes_cons]
      split
      · rfl
      · rw [moveNext_mono hnext (by omega)]
        dsimp only [bind, Except.bind]
        rw [hscan n (by omega)]
        dsimp only
        rw [hat.getReferenceAttribute]
        split <;> rfl

/-- **`get_parameter_types`** of a function with an entry and the entries below it. -/
theorem getParameterTypes_eq (hunits : ∀ cu ∈ cus, ∀ path, cu.PathTo path → cu.Ready cus)
    {e : TypeEntry} (he : e.IsIn cus) {ref : Reference} (href : e.At cus ref) {children : Nodes}
    (hbelow : e.node.Below e.unit children) (hlinked : children.Linked cus e.unit) :
    ∃ n₀, ∀ n ≥ n₀, getParameterTypes cus n ref = .ok children.parameterTypes := by
  obtain ⟨hknown, -, w, w', hw, hmove, hnode⟩ := he.walker hunits href
  obtain ⟨found, down, hdown, hreached⟩ := moveDown_reaches hknown.size_lt hnode hbelow
  obtain ⟨n₀, hscan⟩ : ∃ n₀, ∀ n ≥ n₀, scanParameters cus n found down =
      .ok children.parameterTypes := by
    rcases hbelow.cases with rfl | hlaid
    · exact scanParameters_nil cus hreached
    · exact scanParameters_children hknown hlaid hlinked hreached
  refine ⟨n₀ + 1, fun n hn => ?_⟩
  obtain ⟨n, rfl⟩ := Nat.exists_eq_add_of_le' (Nat.le_of_add_left_le hn)
  rw [getParameterTypes, hw]
  dsimp only
  rw [hmove]
  dsimp only [bind, Except.bind]
  rw [hdown]
  dsimp only
  rw [hscan (n + 1) (by omega)]

end Reading

/-! ### What is declared -/

/-- The classification a function of a type has to return. -/
def returned : FuncType → Nat
  | .test => tcVoid
  | _     => tcSignedInt

/-- A function is declared as a test or as a fixture by its name, its type and its parameters. -/
theorem declares_iff {units : List (List Reflected)} {fn : Reflected} {type : FuncType}
    (htype : type = .test ∨ type = .before ∨ type = .after) :
    (∃ name, declaration units fn = some (name, .function type fn.func)) ↔
      fn.address ≠ 0 ∧ (classifyFunction fn.func.name.bytes maxSubmatch).1 = type ∧
        fn.returnType = returned type ∧ fn.parameterTypes = 0 := by
  have hpos : 0 < maxSubmatch := by decide
  rw [declaration]
  by_cases haddress : fn.address = 0
  · simp [haddress]
  · rw [if_neg haddress]
    cases hclass : (classifyFunction fn.func.name.bytes maxSubmatch).1 with
    | unknown =>
        dsimp only
        rcases htype with rfl | rfl | rfl <;> simp
    | test =>
        dsimp only
        have hsub := classifyFunction_test hpos hclass
        rcases htype with rfl | rfl | rfl <;> simp [haddress, hsub, returned]
    | before =>
        dsimp only
        rcases htype with rfl | rfl | rfl <;> simp [haddress, returned]
    | after =>
        dsimp only
        rcases htype with rfl | rfl | rfl <;> simp [haddress, returned]
    | mock =>
        dsimp only
        rcases htype with rfl | rfl | rfl <;> simp [mockBy]
    | param =>
        dsimp only
        rcases htype with rfl | rfl | rfl <;> simp [parameterOf]

/-- What discovery learns of the function at a reference, with enough fuel. -/
structure Reflects (cus : List CompileUnit) (ref : Reference) (fn : Reflected) : Prop where
  function : ∃ n₀, ∀ n ≥ n₀, ∃ made factory,
    makeFunctionAt cus n ref {} = .ok (some made, factory) ∧
      fn.func.name = CString.ofBuffer made.name ∧ fn.address = made.getAddress
  returnType : ∃ n₀, ∀ n ≥ n₀, ∃ type, getReturnType cus n ref = .ok (some type) ∧
    getClassification cus n type = .ok fn.returnType
  parameterTypes : ∃ n₀, ∀ n ≥ n₀, ∃ types, getParameterTypes cus n ref = .ok types ∧
    fn.parameterTypes = types.length

/-- The name of the function an entry is for, up to a NUL. -/
def Node.functionName (d : Node) : CString :=
  CString.ofBuffer ((stringOf (d.attribute dwAtName)).getD [])

/-- A test returns `void`, a fixture a signed integer or an enumeration, both as for `int`. -/
def ReturnsFor : FuncType → Option TypeEntry → Prop
  | .test, target => target = none
  | _,     target => ∃ e, target = some e ∧ (e.node.IsSignedBase 4 ∨ e.node.IsEnumeration 4)

/-- The classification that a function of a kind has to return. -/
theorem classificationOf_returned_iff {target : Option TypeEntry}
    (hsize : ∀ e, target = some e → e.node.SizeFits) (type : FuncType) :
    classificationOf target = returned type ↔ ReturnsFor type target := by
  have hint : classificationOf target = tcSignedInt ↔
      ∃ e, target = some e ∧ (e.node.IsSignedBase 4 ∨ e.node.IsEnumeration 4) := by
    cases target with
    | none => exact iff_of_false (by decide) (by simp)
    | some e => simp [classificationOf_signedInt_iff (hsize e rfl)]
  cases type
  case test => exact classificationOf_void_iff
  all_goals exact hint

section
variable {cus : List CompileUnit} {fn : Reflected} {e : TypeEntry}

/-- The function for an entry has the entry's name and its address. -/
theorem Reflects.name_address (hunits : ∀ cu ∈ cus, ∀ path, cu.PathTo path → cu.Ready cus)
    (he : e.IsIn cus) (hfn : Reflects cus (e.unit.makeReference e.node.off) fn) :
    fn.func.name = e.node.functionName ∧ fn.address = uint64Of (e.node.attribute dwAtLowPc) := by
  obtain ⟨hcu, path, hpath, hlast⟩ := he
  have hknown := (hunits e.unit hcu path hpath).known
  have hread := hpath.isRead e.node (List.mem_of_getLast? hlast)
  obtain ⟨factory', hmake, -⟩ := makeFunctionAt_entry hknown hread (sound_new cus)
  obtain ⟨n₀, hfunction⟩ := hfn.function
  obtain ⟨made, factory, hmade, hname, haddress⟩ := hfunction (n₀ + 1) (Nat.le_add_right ..)
  rw [hmake] at hmade
  cases hmade
  exact ⟨hname, haddress⟩

/-- The function for an entry returns what the entry's type comes to. -/
theorem Reflects.type (hunits : ∀ cu ∈ cus, ∀ path, cu.PathTo path → cu.Ready cus)
    (he : e.IsIn cus) {ref : Reference} (href : e.At cus ref) (hfn : Reflects cus ref fn)
    {target : Option TypeEntry}
    (htarget : Names cus (referenceOf (e.node.attribute dwAtType)) target) :
    fn.returnType = classificationOf target := by
  obtain ⟨n₁, hreturn⟩ := hfn.returnType
  obtain ⟨n₂, hclass⟩ := getClassification_eq hunits htarget
  obtain ⟨type, htype, hreturned⟩ := hreturn (max n₁ n₂ + 1) (by omega)
  rw [getReturnType_eq hunits he href] at htype
  obtain rfl := Option.some.inj (Except.ok.inj htype)
  rw [hclass _ (by omega)] at hreturned
  exact (Except.ok.inj hreturned).symm

/-- **As many parameters as there are entries for them.** -/
theorem Reflects.parameters (hunits : ∀ cu ∈ cus, ∀ path, cu.PathTo path → cu.Ready cus)
    (he : e.IsIn cus) {ref : Reference} (href : e.At cus ref) (hfn : Reflects cus ref fn)
    {children : Nodes} (hbelow : e.node.Below e.unit children)
    (hlinked : children.Linked cus e.unit) :
    fn.parameterTypes = children.parameterTypes.length := by
  obtain ⟨n₁, hparameters⟩ := hfn.parameterTypes
  obtain ⟨n₂, htypes⟩ := getParameterTypes_eq hunits he href hbelow hlinked
  obtain ⟨types, hget, hlength⟩ := hparameters (max n₁ n₂) (Nat.le_max_left ..)
  rw [htypes _ (Nat.le_max_right ..)] at hget
  rw [hlength, ← Except.ok.inj hget]

/-- Every entry with such a type and such children is reflected. -/
theorem exists_reflects (hunits : ∀ cu ∈ cus, ∀ path, cu.PathTo path → cu.Ready cus)
    (he : e.IsIn cus) {target : Option TypeEntry}
    (htarget : Names cus (referenceOf (e.node.attribute dwAtType)) target) {children : Nodes}
    (hbelow : e.node.Below e.unit children) (hlinked : children.Linked cus e.unit)
    (hfunc : fn.func.name = e.node.functionName)
    (haddress : fn.address = uint64Of (e.node.attribute dwAtLowPc))
    (htype : fn.returnType = classificationOf target)
    (hparameters : fn.parameterTypes = children.parameterTypes.length) :
    Reflects cus (e.unit.makeReference e.node.off) fn := by
  obtain ⟨hcu, path, hpath, hlast⟩ := id he
  have hknown := (hunits e.unit hcu path hpath).known
  have hread := hpath.isRead e.node (List.mem_of_getLast? hlast)
  have href : e.At cus (e.unit.makeReference e.node.off) := hknown.resolve (hknown.off_lt hread)
  refine ⟨⟨1, fun n hn => ?_⟩, ?_, ?_⟩
  · obtain ⟨n, rfl⟩ := Nat.exists_eq_add_of_le' hn
    obtain ⟨factory, hmake, -⟩ := makeFunctionAt_entry hknown hread (sound_new cus)
    exact ⟨_, factory, hmake n, hfunc, haddress⟩
  · obtain ⟨n₀, hclass⟩ := getClassification_eq hunits htarget
    refine ⟨n₀ + 1, fun n hn => ?_⟩
    obtain ⟨n, rfl⟩ := Nat.exists_eq_add_of_le' (Nat.le_of_add_left_le hn)
    exact ⟨_, getReturnType_eq hunits he href n, by rw [htype, hclass _ (by omega)]⟩
  · obtain ⟨n₀, htypes⟩ := getParameterTypes_eq hunits he href hbelow hlinked
    exact ⟨n₀, fun n hn => ⟨_, htypes n hn, hparameters⟩⟩

end

/-- A child of the root entry is an entry of the unit. -/
theorem Nodes.pathTo_of_mem {nodes : Nodes} {d : Node} (h : d ∈ nodes.toList) :
    nodes.PathTo [d] := by
  induction nodes with
  | nil => cases h
  | cons d' children siblings _ ih =>
      rcases List.mem_cons.mp h with rfl | h
      · exact .here
      · exact .next (ih h)

theorem CompileUnit.HasChildren.isIn {children : Nodes} {cus : List CompileUnit} {e : TypeEntry}
    (h : e.unit.HasChildren cus children) (hcu : e.unit ∈ cus) (he : e.node ∈ children.toList) :
    e.IsIn cus := by
  obtain ⟨⟨root, hoff, hread, hbelow⟩, -⟩ := h
  exact ⟨hcu, [root, e.node], ⟨hoff, hread, hbelow, .inr (Nodes.pathTo_of_mem he), rfl⟩, rfl⟩

/-- The functions of a loaded state that discovery looks at. -/
theorem mem_discoverFunctions_iff {fuel : Nat} {p : Platform} {calls : List AddCall} {s : LoadState}
    (hs : LoadState.addAll fuel p {} calls = .ok s)
    (hmem : ∀ cu ∈ s.getCompileUnits, (cu.linkObject.getSection .info).InUserSpace)
    (sort : AddressSort) (classify : List UInt8 → FuncType × List UInt8)
    {children : CompileUnit → Nodes}
    (hchildren : ∀ cu ∈ s.getCompileUnits, cu.HasChildren s.getCompileUnits (children cu))
    {e : TypeEntry} (hcu : e.unit ∈ s.getCompileUnits)
    (he : e.node ∈ (children e.unit).toList) (hfunction : e.node.IsFunction) :
    ∃ n₀ fns, (∀ n ≥ n₀, discoverFunctions sort classify n s = .ok fns) ∧
      (e.node.function e.unit ∈ fns ↔ uint64Of (e.node.attribute dwAtLowPc) ≠ 0) := by
  obtain ⟨n₀, fns, hdiscover, hperm⟩ := discoverFunctions_perm hs hmem sort classify hchildren
  refine ⟨n₀, fns, hdiscover, ?_⟩
  have hin : e.node.function e.unit ∈
      s.getCompileUnits.flatMap fun cu => (children cu).functions cu :=
    List.mem_flatMap.mpr ⟨e.unit, hcu, List.mem_map_of_mem
      (List.mem_filter.mpr ⟨he, decide_eq_true hfunction⟩)⟩
  rw [hperm.mem_iff, List.mem_filter, and_iff_right hin]
  exact decide_eq_true_iff

/-- A unit with children; functions with a type, typedefs and base types. -/
def fixtureAbbrevs : List AbbrevDecl :=
  [{ code := .byte 1, tag := .byte 0x11, children := true, specs := [] },
    { code := .byte 2, tag := .byte 0x2e, children := false,
      specs := [(.byte 0x03, .byte 0x08), (.byte 0x11, .byte 0x01), (.byte 0x49, .byte 0x13)] },
    { code := .byte 3, tag := .byte 0x16, children := false, specs := [(.byte 0x49, .byte 0x13)] },
    { code := .byte 4, tag := .byte 0x24, children := false,
      specs := [(.byte 0x0b, .byte 0x0b), (.byte 0x3e, .byte 0x0b)] }]

/-- The function `set_up`, of the type `status`. -/
def setUpDie : Die :=
  { code := .byte 2, operands := [.string (CString.ascii "set_up"), .addr 0x1000, .ref4 32] }

/-- A typedef of `int`. -/
def statusDie : Die := { code := .byte 3, operands := [.ref4 37] }

/-- `int`, signed with four bytes. -/
def intDie : Die := { code := .byte 4, operands := [.data1 4, .data1 5] }

/-- A fixture that returns another name for `int`. -/
def fixtureTree : Tree where
  root := unitDie
  children := .cons setUpDie .nil (.cons statusDie .nil (.cons intDie .nil .nil))

theorem length_fixtureTree : (fixtureTree.body .four fixtureAbbrevs).length + 7 < 0xfffffff0 := by
  decide

/-- Their unit in version 4. -/
def fixtureUnit : Unit32 :=
  .ofBody .four (fixtureTree.body .four fixtureAbbrevs) Format.four_is64 length_fixtureTree

theorem length_fixtureUnit : 4096 + fixtureUnit.encode.length < 2 ^ 63 := by decide
theorem length_fixtureAbbrevs : 8192 + (encodeTable fixtureAbbrevs).length < 2 ^ 63 := by decide

/-- Every file is the object with this unit. -/
def fixturePlatform : Platform where
  selfExe := CString.ascii "/t"
  mapSections _ _ name :=
    if name = .info then ⟨4096, fixtureUnit.encode, length_fixtureUnit⟩
    else if name = .abbrevs then ⟨8192, encodeTable fixtureAbbrevs, length_fixtureAbbrevs⟩
    else if name = .line then ⟨12288, noLines.encode, length_oneLines⟩
    else .empty

/-- The unit as it is loaded. -/
def IsFixtureUnit (cu : CompileUnit) : Prop :=
  cu.version = 4 ∧ cu.reader.bytes = fixtureUnit.encode ∧ cu.reader.is64 = false ∧
    cu.abbrevs = none :: fixtureAbbrevs.map (fun d => some d.toAbbrev) ∧
    (cu.linkObject.getSection .info).map + (cu.linkObject.getSection .info).bytes.length < 2 ^ 56

instance (cu : CompileUnit) : Decidable (IsFixtureUnit cu) :=
  inferInstanceAs (Decidable (_ ∧ _ ∧ _ ∧ _ ∧ _))

/-- The state it is loaded into, as the results about states take it. -/
theorem loaded_fixture : ∃ s cu, LoadState.addAll 40 fixturePlatform {} nestedCalls = .ok s ∧
    cu ∈ s.getCompileUnits ∧ ∀ cu ∈ s.getCompileUnits, IsFixtureUnit cu := by
  have hrun : (LoadState.addAll 40 fixturePlatform {} nestedCalls).toOption.any (fun s =>
      decide (s.getCompileUnits.length = 1 ∧ ∀ cu ∈ s.getCompileUnits, IsFixtureUnit cu)) =
      true := by decide +kernel
  obtain ⟨s, hs, hunits⟩ := exists_of_toOption_any hrun
  obtain ⟨hlen, hall⟩ := of_decide_eq_true hunits
  obtain ⟨cu, hcu⟩ := List.length_eq_one_iff.mp hlen
  have hin : cu ∈ s.getCompileUnits := by simp [hcu]
  exact ⟨s, cu, hs, hin, hall⟩

theorem fixtureAbbrevs_valid : ∀ d ∈ fixtureAbbrevs, d.Valid := by
  intro d hd
  simp only [fixtureAbbrevs, List.mem_cons, List.not_mem_nil, or_false] at hd
  rcases hd with rfl | rfl | rfl | rfl
  all_goals exact ⟨by decide, by decide, by decide, by decide, by decide⟩

theorem fixtureAbbrevs_code : ∀ i d, fixtureAbbrevs[i]? = some d → d.code.toNat = i + 1 := by
  rintro (_ | _ | _ | _ | i) d hd
  all_goals cases hd
  all_goals rfl

/-- The tree can be written. -/
theorem fixtureTree_valid (lo : LinkObject) : fixtureTree.Valid .four lo fixtureAbbrevs where
  root := ⟨_, rfl, rfl, fun _ hop => absurd hop List.not_mem_nil⟩
  hasChildren := by decide
  children := by
    have hname : (0 : UInt8) ∉ CString.ascii "set_up" := by decide
    have hnumber : True ∧ True := ⟨trivial, trivial⟩
    refine ⟨⟨_, rfl, rfl, ?_⟩, fun _ => rfl, trivial,
      ⟨_, rfl, rfl, ?_⟩, fun _ => rfl, trivial,
      ⟨_, rfl, rfl, ?_⟩, fun _ => rfl, trivial, trivial⟩
    · exact List.forall_mem_cons.mpr ⟨⟨hname, trivial⟩,
        List.forall_mem_cons.mpr ⟨hnumber, List.forall_mem_singleton.mpr hnumber⟩⟩
    · exact List.forall_mem_singleton.mpr hnumber
    · exact List.forall_mem_cons.mpr ⟨hnumber, List.forall_mem_singleton.mpr hnumber⟩

/-- The entries below the root. -/
def fixtureNodes (cu : CompileUnit) : Nodes :=
  fixtureTree.children.nodes .four fixtureAbbrevs cu 12

/-- The unit's root. -/
def fixtureRoot (cu : CompileUnit) : Node :=
  unitDie.node .four fixtureAbbrevs cu 11 fixtureTree.children

/-- One of the entries below it. -/
def fixtureNode (cu : CompileUnit) (off : Nat) (die : Die) : TypeEntry :=
  ⟨cu, die.node .four fixtureAbbrevs cu off .nil⟩

/-- The root and the entries below it are read. -/
theorem fixture_below {cu : CompileUnit} (h : IsFixtureUnit cu) :
    (fixtureRoot cu).IsRead cu ∧ (fixtureRoot cu).Below cu (fixtureNodes cu) := by
  obtain ⟨hversion, hbytes, h64, habbrevs, -⟩ := h
  have hholds := CompileUnit.holds_numbered fixtureAbbrevs_code fixtureAbbrevs_valid hversion h64
    habbrevs
  have hcontents : cu.getContents.bytes = fixtureUnit.encode := cu.getContents_frame.1.trans hbytes
  have hat : cu.HasAt headerLength (fixtureTree.body .four fixtureAbbrevs ++ []) := by
    constructor
    · rw [hcontents]
      decide
    · rw [hcontents]
      decide
  exact Tree.root_below hholds (fixtureTree_valid cu.linkObject) hat

/-- The entries below the root are entries of the unit. -/
theorem fixtureNode_isIn {cus : List CompileUnit} {cu : CompileUnit} (h : IsFixtureUnit cu)
    (hin : cu ∈ cus) (off : Nat) (die : Die)
    (hpath : (fixtureNodes cu).PathTo [(fixtureNode cu off die).node]) :
    (fixtureNode cu off die).IsIn cus :=
  ⟨hin, _, ⟨rfl, (fixture_below h).1, (fixture_below h).2, .inr hpath, rfl⟩, rfl⟩

/-- The root has them for children. -/
theorem fixture_hasChildren {cus : List CompileUnit} {cu : CompileUnit} (h : IsFixtureUnit cu) :
    cu.HasChildren cus (fixtureNodes cu) := by
  obtain ⟨hread, hbelow⟩ := fixture_below h
  refine ⟨⟨_, rfl, hread, hbelow⟩, fun d hd ref href => ?_⟩
  -- none of the three has a `DW_AT_sibling`
  rcases List.mem_cons.mp hd with rfl | hd
  · cases href
  · rcases List.mem_cons.mp hd with rfl | hd
    · cases href
    · obtain rfl := List.mem_singleton.mp hd
      cases href

/-- What discovery learns of it. -/
def setUpReflected : Reflected where
  func :=
    ⟨CString.ofBuffer (CString.ascii "/t.c"), CString.ofBuffer (CString.ascii "set_up"),
      .returned 0⟩
  address := 0x1000
  liveAddress := 0x1000
  isDeclaration := false
  fullName := CString.ofBuffer (CString.ascii "set_up")
  returnType := tcSignedInt
  parameterTypes := 0
  result := none

end NovaProva.Dwarf
