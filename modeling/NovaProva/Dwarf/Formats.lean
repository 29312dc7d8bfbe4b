import NovaProva.Dwarf.Preorder

/-!
# Dwarf — Formats

The same tree written in different versions and formats.  In the 32-bit format it is read as the
same sequence of entries in every version, if its forms can be handled, its LEB128 numbers come out
right and it does not end with a block; in the 64-bit format it is never read: the header is taken
to be 11 bytes long and the offset of the abbreviations to be four, so that `read_header` either
ends the process or leaves the section's reader somewhere else than behind the unit.
-/

namespace NovaProva.Dwarf

open Walker

/-! ### What does not depend on the format -/

/-- The tag, the level and the attributes of an entry. -/
def EntryContent : Type := Nat × Nat × (Nat → Option Value)

/-- What does not depend on the format. -/
def Walker.EntryView.content (v : EntryView) : EntryContent := (v.tag, v.level, v.getAttribute)

section
variable (lo : LinkObject) (index : Nat) (table : List AbbrevDecl)

/-- The entry `d` with `val` of its operands for its values, without its offset. -/
def Die.contentWith (val : Operand → Value) (level : Nat) (d : Die) : EntryContent :=
  (d.viewWith table val 0 level).content

/-- The entries of a list of siblings and their children in preorder, without their offsets. -/
def Dies.contentsWith (val : Operand → Value) : Nat → Dies → List EntryContent
  | _,     .nil => []
  | level, .cons d children siblings =>
      d.contentWith table val level ::
        (Dies.contentsWith val (level + 1) children ++ Dies.contentsWith val level siblings)

/-- The entries of a unit, without their offsets. -/
def Tree.contentsWith (val : Operand → Value) (tree : Tree) : List EntryContent :=
  tree.root.contentWith table val 0 :: tree.children.contentsWith table val 1

/-- The entries of a tree with the values their operands stand for. -/
def Tree.contents (tree : Tree) : List EntryContent :=
  tree.contentsWith table (Operand.value lo index)

/-- Every attribute that has a slot is read back; of several of one name the last has it. -/
def Die.ReadBack (d : Die) : Prop :=
  ∀ a, lookupAbbrev table d.code.toNat = some a →
    ∀ name op, (Entry.nameToIndex name).isSome → lastOf a.attrSpecs d.operands name = some op →
      op.ReadBack

/-- Every attribute of a list of siblings and their children is read back. -/
def Dies.ReadBack : Dies → Prop
  | .nil => True
  | .cons d children siblings => d.ReadBack table ∧ children.ReadBack ∧ siblings.ReadBack

/-- Every attribute of a unit is read back. -/
def Tree.ReadBack (tree : Tree) : Prop := tree.root.ReadBack table ∧ tree.children.ReadBack table

variable {lo index table}

theorem Dies.map_content_viewsWith (fmt : Format) (val : Operand → Value) (off level : Nat)
    (ds : Dies) :
    (ds.viewsWith fmt table val off level).map EntryView.content =
      ds.contentsWith table val level := by
  induction ds generalizing off level with
  | nil => rfl
  | cons d children siblings ihc ihs =>
      rw [Dies.viewsWith, List.map_cons, List.map_append, ihc, ihs]
      rfl

theorem Tree.map_content_viewsWith (fmt : Format) (val : Operand → Value) (tree : Tree) :
    (tree.viewsWith fmt table val).map EntryView.content = tree.contentsWith table val := by
  rw [Tree.viewsWith, List.map_cons, Dies.map_content_viewsWith]
  rfl

/-- An attribute has the same value as read as it stands for, if it is read back. -/
theorem lastOf_readValue_eq_iff (specs : List AttrSpec) (ops : List Operand) (name : Nat) :
    lastOf specs (ops.map (Operand.readValue lo index)) name =
        lastOf specs (ops.map (Operand.value lo index)) name ↔
      ∀ op, lastOf specs ops name = some op → op.ReadBack := by
  rw [lastOf_map, lastOf_map]
  cases lastOf specs ops name with
  | none => simp
  | some op => simp [Operand.readValue_eq_iff]

theorem Die.contentWith_eq_iff (level : Nat) (d : Die) :
    d.contentWith table (Operand.readValue lo index) level =
        d.contentWith table (Operand.value lo index) level ↔ d.ReadBack table := by
  have hiff : d.contentWith table (Operand.readValue lo index) level =
      d.contentWith table (Operand.value lo index) level ↔
        (d.viewWith table (Operand.readValue lo index) 0 level).getAttribute =
          (d.viewWith table (Operand.value lo index) 0 level).getAttribute := by
    constructor
    · intro h
      exact congrArg (fun c : EntryContent => c.2.2) h
    · intro h
      exact congrArg
        (fun f => ((d.viewWith table (Operand.value lo index) 0 level).tag, level, f)) h
  rw [hiff, Die.ReadBack, funext_iff]
  simp only [Die.viewWith]
  cases lookupAbbrev table d.code.toNat with
  | none => simp
  | some a =>
      simp only [Option.bind_some, Option.some.injEq, forall_eq']
      refine forall_congr' fun name => ?_
      split
      case isTrue hname =>
        simp only [hname, true_implies, lastOf_readValue_eq_iff]
      case isFalse hname =>
        simp [hname]

/-- What can be read back is. -/
theorem Die.Fits.readBack {fmt : Format} {d : Die} {a : Abbrev} (hd : d.Valid fmt lo table a) :
    d.ReadBack table :=
  fun _ _ _ op _ hop => (hd.operands op (mem_of_lastOf hop)).2

theorem Dies.Fits.readBack {fmt : Format} {ds : Dies} (hds : ds.Valid fmt lo table) :
    ds.ReadBack table := by
  induction ds with
  | nil => trivial
  | cons d children siblings ihc ihs =>
      obtain ⟨⟨a, hd⟩, -, hchildren, hsiblings⟩ := hds
      exact ⟨hd.readBack, ihc hchildren, ihs hsiblings⟩

theorem Tree.Valid.readBack {fmt : Format} {tree : Tree} (h : tree.Valid fmt lo table) :
    tree.ReadBack table := by
  obtain ⟨a, hroot⟩ := h.root
  exact ⟨hroot.readBack, h.children.readBack⟩

theorem Dies.length_contentsWith (val val' : Operand → Value) (level : Nat) (ds : Dies) :
    (ds.contentsWith table val level).length = (ds.contentsWith table val' level).length := by
  induction ds generalizing level with
  | nil => rfl
  | cons d children siblings ihc ihs =>
      simp only [Dies.contentsWith, List.length_cons, List.length_append, ihc, ihs]

theorem Dies.contentsWith_eq_iff (level : Nat) (ds : Dies) :
    ds.contentsWith table (Operand.readValue lo index) level =
        ds.contentsWith table (Operand.value lo index) level ↔ ds.ReadBack table := by
  induction ds generalizing level with
  | nil => exact iff_of_true rfl trivial
  | cons d children siblings ihc ihs =>
      rw [Dies.contentsWith, Dies.contentsWith, Dies.ReadBack, List.cons.injEq,
        Die.contentWith_eq_iff, ← ihc (level + 1), ← ihs level]
      refine and_congr_right fun _ => ⟨fun h => ?_, fun h => ?_⟩
      · exact List.append_inj h (Dies.length_contentsWith _ _ _ children)
      · rw [h.1, h.2]

/-- Which trees are read as what they stand for. -/
theorem Tree.contentsWith_eq_iff (tree : Tree) :
    tree.contentsWith table (Operand.readValue lo index) = tree.contents lo index table ↔
      tree.ReadBack table := by
  rw [Tree.contents, Tree.contentsWith, Tree.contentsWith, List.cons.injEq,
    Die.contentWith_eq_iff, Dies.contentsWith_eq_iff, Tree.ReadBack]

end

/-- From the section's reader `r` at a unit of `length` bytes, with the abbreviations' reader `ar`,
`read_header` succeeds and leaves the section's reader behind the unit, and a walk returns the
entries of the tree. -/
def ReadsTree (lo : LinkObject) (index : Nat) (table : List AbbrevDecl) (tree : Tree)
    (r ar : Reader) (length : Nat) : Prop :=
  ∃ cu r', CompileUnit.readHeader { index := index, linkObject := lo } r = .ok (some cu, r') ∧
    r'.p = r.p + length ∧
    ∃ vs, (∃ n, ∀ m ≥ n, (Walker.ofUnit (cu.readAbbrevs ar).1).preorder m = .ok vs) ∧
      vs.map EntryView.content = tree.contents lo index table

/-! ### The 64-bit format -/

/-- A fixed-width read fails or moves over its bytes. -/
theorem readLe_cases (n : Nat) (r : Reader) :
    Read.readLe n r = (none, r) ∨ ∃ v, Read.readLe n r = (some v, r.setP (r.p + n)) := by
  unfold Read.readLe
  split
  · exact .inl rfl
  · exact .inr ⟨_, rfl⟩

theorem readLe_end {n : Nat} {v : Option Nat} {r r' : Reader} (h : Read.readLe n r = (v, r')) :
    r'.end_ = r.end_ := by
  rcases readLe_cases n r with h' | ⟨v', h'⟩
  · rw [h'] at h
    cases h
    rfl
  · rw [h'] at h
    cases h
    rfl

theorem skip_end (n : Nat) (r : Reader) : (Read.skip n r).2.end_ = r.end_ := by
  unfold Read.skip
  split
  · rfl
  · rfl

/-- What `read_initial_length` has read. -/
theorem readInitialLength_some {r r₁ : Reader} {length : Nat} {is64 : Bool}
    (h : Read.readInitialLength r = (some (length, is64), r₁)) :
    r₁.end_ = r.end_ ∧ ((is64 = false ∧ length < 0xfffffff0) ∨
      (is64 = true ∧ ∃ r', Read.readU32 r = (some 0xffffffff, r') ∧
        Read.readU64 r' = (some length, r₁))) := by
  obtain ⟨v, r', h₁, h₂⟩ := Read.bind_eq_some h
  have hend := readLe_end h₁
  split at h₂
  case isTrue hv =>
    obtain ⟨v', r'', h₃, h₄⟩ := Read.bind_eq_some h₂
    cases h₄
    exact ⟨(readLe_end h₃).trans hend, .inr ⟨rfl, r', hv ▸ h₁, h₃⟩⟩
  · split at h₂
    · cases h₂
    · cases h₂
      exact ⟨hend, .inl ⟨rfl, by omega⟩⟩

theorem readU8_cases (r : Reader) :
    Read.readU8 r = (none, r) ∨ ∃ v, Read.readU8 r = (some v, r.setP (r.p + 1)) := by
  unfold Read.readU8
  split
  · exact .inl rfl
  · exact .inr ⟨_, rfl⟩

/-- The offset of the abbreviations and the size of an address, five bytes in all. -/
theorem readOffsetSize_cases (r : Reader) :
    (∃ r', (do
      let abbrevsOffset ← Read.readU32
      let addrsize ← Read.readU8
      return (abbrevsOffset, addrsize) : Read (Nat × Nat)) r = (none, r')) ∨
    ∃ v, (do
      let abbrevsOffset ← Read.readU32
      let addrsize ← Read.readU8
      return (abbrevsOffset, addrsize) : Read (Nat × Nat)) r = (some v, r.setP (r.p + 5)) := by
  rcases readLe_cases 4 r with h₁ | ⟨a, h₁⟩
  · exact .inl ⟨r, Read.bind_none h₁⟩
  · rcases readU8_cases (r.setP (r.p + 4)) with h₂ | ⟨b, h₂⟩
    · exact .inl ⟨_, (Read.bind_some h₁).trans (Read.bind_none h₂)⟩
    · rw [Reader.setP_setP] at h₂
      exact .inr ⟨(a, b), (Read.bind_some h₁).trans (Read.bind_some h₂)⟩

/-- What `read_header` has done when it returns a unit. -/
theorem readHeader_some {cu cu' : CompileUnit} {r r' : Reader}
    (h : cu.readHeader r = .ok (some cu', r')) :
    ∃ length is64 r₁, Read.readInitialLength r = (some (length, is64), r₁) ∧
      length ≤ r₁.getRemains ∧ minUnitLength is64 ≤ length ∧
      cu'.reader = Reader.initialSubset { r with is64 := is64 }
        ((length + lengthFieldSize is64) % 2 ^ 64) ∧
      r' = (Read.skip (((length + lengthFieldSize is64) % 2 ^ 64 + (2 ^ 64 - headerLength))
        % 2 ^ 64) (r₁.setP (r₁.p + 7))).2 := by
  unfold CompileUnit.readHeader at h
  rcases h₁ : Read.readInitialLength r with ⟨_ | ⟨length, is64⟩, r₁⟩
  · rw [h₁] at h
    cases h
  refine ⟨length, is64, r₁, rfl, ?_⟩
  rw [h₁] at h
  dsimp only at h
  split at h
  · cases h
  next hremains =>
    refine ⟨Nat.not_lt.mp hremains, ?_⟩
    rcases readLe_cases 2 r₁ with h₂ | ⟨version, h₂⟩
    · rw [Read.readU16, h₂] at h
      cases h
    rw [Read.readU16, h₂] at h
    dsimp only at h
    split at h
    · cases h
    split at h
    · cases h
    next hlen =>
      refine ⟨Nat.not_lt.mp hlen, ?_⟩
      rcases readOffsetSize_cases (r₁.setP (r₁.p + 2)) with ⟨r₃, h₃⟩ | ⟨v, h₃⟩
      · rw [h₃] at h
        cases h
      rw [h₃] at h
      dsimp only at h
      split at h
      · cases h
      rw [Reader.setP_setP] at h
      cases h
      exact ⟨rfl, rfl⟩

/-- The section's reader stays in its section. -/
theorem readHeader_section {cu cu' : CompileUnit} {r r' : Reader}
    (h : cu.readHeader r = .ok (some cu', r')) : r'.end_ = r.end_ := by
  obtain ⟨length, is64, r₁, h₁, -, -, -, hr'⟩ := readHeader_some h
  have hend := (readInitialLength_some h₁).1
  rw [hr', skip_end, Reader.setP_end, hend]

/-- Whatever `read_header` makes of a unit in the 64-bit format, it does not leave the section's
reader behind the unit. -/
theorem readHeader_is64 {fmt : Format} (h64 : fmt.is64 = true) {abbrevOffset : Nat}
    {body post : List UInt8} {r r' : Reader} {cu cu' : CompileUnit}
    (hr : r.At (encodeUnit fmt abbrevOffset body ++ post))
    (h : cu.readHeader r = .ok (some cu', r')) :
    r'.p ≠ r.p + (encodeUnit fmt abbrevOffset body).length := by
  have hlt := r.end_lt
  have hend := hr.end_eq
  generalize hcontents : encodeContents fmt abbrevOffset body = contents at *
  have hunit : encodeUnit fmt abbrevOffset body = (Bytes.leBytes 4 0xffffffff ++
      Bytes.leBytes 8 contents.length) ++ contents := by
    rw [encodeUnit, hcontents, h64]
    rfl
  have hlength : (encodeUnit fmt abbrevOffset body).length = contents.length + 12 := by
    rw [hunit]
    simp only [List.length_append, Bytes.length_leBytes]
    omega
  rw [List.length_append, hlength] at hend
  rw [hunit, List.append_assoc] at hr
  have hread := (Reads.readInitialLength64 (n := contents.length) (by omega)).run hr
  simp only [List.length_append, Bytes.length_leBytes] at hread
  obtain ⟨length, is64, r₁, h₁, -, hmin, -, hr'⟩ := readHeader_some h
  rw [hread] at h₁
  cases h₁
  rw [minUnitLength, if_pos rfl, headerLength] at hmin
  -- the reader is 19 bytes behind the start, and moves on by the unit's length less 11
  have hp : ((r.setP (r.p + (4 + 8))).setP ((r.setP (r.p + (4 + 8))).p + 7)).p = r.p + 19 := by
    rw [Reader.setP_setP]
    exact r.setP_p (by omega)
  have hskip : ((contents.length + lengthFieldSize true) % 2 ^ 64 + (2 ^ 64 - headerLength))
      % 2 ^ 64 = contents.length + 1 := by
    rw [lengthFieldSize, if_pos rfl, headerLength]
    omega
  rw [hr', hskip, hlength, Read.skip, hp]
  split
  · dsimp only
    rw [hp]
    omega
  · change (r.p + 19 + (contents.length + 1)) % 2 ^ 64 ≠ _
    omega

/-! ### Both formats -/

/-- What a walk over a unit of the 32-bit format returns, as a whole. -/
theorem preorder_spelled {u : Unit32} {lo : LinkObject} {table : List AbbrevDecl} {tree : Tree}
    (htable : ∀ d ∈ table, d.Valid) (htree : tree.Spelled u.fmt lo table)
    (hbody : u.body = tree.encode u.fmt table) {r ar : Reader} {post apost : List UInt8}
    (hr : r.At (u.encode ++ post)) (hle : u.abbrevOffset ≤ ar.bytes.length)
    (har : ar.bytes.drop u.abbrevOffset = encodeTable table ++ apost) (index : Nat) :
    ∃ vs,
      (∃ n, ∀ m ≥ n, (Walker.ofUnit ((u.loaded { index := index, linkObject := lo } r).readAbbrevs
          ar).1).preorder m = .ok vs) ∧
        (vs.map EntryView.content = tree.contents lo index table ↔
          tree.ReadBack table ∧ (tree.root.hasChildren table = false →
            BlocksInside u.fmt tree.root.operands [])) := by
  have hread : (tree.viewsWith u.fmt table (Operand.readValue lo index)).map EntryView.content =
      tree.contents lo index table ↔ tree.ReadBack table := by
    rw [Tree.map_content_viewsWith, Tree.contentsWith_eq_iff]
  cases hchildren : tree.root.hasChildren table with
  | true =>
      have hbody' : u.body = tree.body u.fmt table := by
        rw [hbody, Tree.encode, if_pos hchildren, Tree.body]
      obtain ⟨n, hn⟩ := preorder_children htable hr hle har index htree hchildren hbody' 0
      have hall : (tree.viewsWith u.fmt table (Operand.readValue lo index)).filter (passes 0) =
          tree.viewsWith u.fmt table (Operand.readValue lo index) :=
        List.filter_eq_self.mpr fun v _ => rfl
      rw [hall] at hn
      exact ⟨_, ⟨n, hn⟩, hread.trans (and_iff_left fun h => Bool.noConfusion h).symm⟩
  | false =>
      obtain ⟨vs, hn, ⟨hblocks, rfl⟩ | ⟨hblocks, rfl⟩⟩ :=
        preorder_leaf htable hr hle har index htree hchildren hbody
      · exact ⟨_, hn, hread.trans ⟨fun h => ⟨h, fun _ => hblocks⟩, fun h => h.1⟩⟩
      · refine ⟨_, hn, iff_of_false (fun h => ?_) fun h => hblocks (h.2 rfl)⟩
        cases congrArg List.length h

section
variable {u : Unit32} {lo : LinkObject} {table : List AbbrevDecl} {tree : Tree}
  (htable : ∀ d ∈ table, d.Valid) (hbody : u.body = tree.encode u.fmt table) {r ar : Reader}
  {post apost : List UInt8} (hr : r.At (u.encode ++ post))
  (hle : u.abbrevOffset ≤ ar.bytes.length)
  (har : ar.bytes.drop u.abbrevOffset = encodeTable table ++ apost) (index : Nat)
include htable hbody hr hle har

/-- A tree in forms that are read is read from the 32-bit format, but for its numbers and for a
block that ends it. -/
theorem readsTree_spelled_iff (htree : tree.Spelled u.fmt lo table) :
    ReadsTree lo index table tree r ar u.encode.length ↔
      tree.ReadBack table ∧
        (tree.root.hasChildren table = false → BlocksInside u.fmt tree.root.operands []) := by
  have hread := readHeader_unit32 u { index := index, linkObject := lo } hr
  obtain ⟨vs, ⟨n, hn⟩, hvs⟩ := preorder_spelled htable htree hbody hr hle har index
  rw [← hvs]
  constructor
  · rintro ⟨cu, r', hread', -, us, ⟨m, hm⟩, hus⟩
    cases hread.symm.trans hread'
    have heq := hm (max n m) (le_max_right _ _)
    rw [hn (max n m) (le_max_left _ _)] at heq
    cases heq
    exact hus
  · intro hcontents
    exact ⟨_, _, hread, hr.setP_p, vs, ⟨n, hn⟩, hcontents⟩

/-- A tree with a form that can't be handled is not read. -/
theorem not_readsTree (htree : tree.Writable u.fmt lo table) (hno : ¬ tree.Handled table) :
    ¬ ReadsTree lo index table tree r ar u.encode.length := by
  rintro ⟨cu, r', hread', -, us, ⟨m, hm⟩, -⟩
  cases (readHeader_unit32 u { index := index, linkObject := lo } hr).symm.trans hread'
  exact preorder_fails htable hr hle har index htree hno hbody m us (hm m (Nat.le_refl m))

end

/-- **A tree is read exactly from the 32-bit format**, in each of the versions 2 to 4, if
`read_attributes` can handle every form in it, every LEB128 number is read back and no block ends
it; `DW_FORM_ref_addr` is left out of version 2. -/
theorem readsTree_iff {fmt : Format} {lo : LinkObject} {table : List AbbrevDecl} {tree : Tree}
    {abbrevOffset : Nat} (htable : ∀ d ∈ table, d.Valid)
    (htree : fmt.is64 = false → tree.Writable fmt lo table ∧
      abbrevOffset < 2 ^ 32 ∧ (tree.encode fmt table).length + 7 < 0xfffffff0)
    {r ar : Reader} {post apost : List UInt8}
    (hr : r.At (encodeUnit fmt abbrevOffset (tree.encode fmt table) ++ post))
    (hle : abbrevOffset ≤ ar.bytes.length)
    (har : ar.bytes.drop abbrevOffset = encodeTable table ++ apost) (index : Nat) :
    ReadsTree lo index table tree r ar
        (encodeUnit fmt abbrevOffset (tree.encode fmt table)).length ↔
      fmt.is64 = false ∧ tree.Handled table ∧ tree.ReadBack table ∧
        (tree.root.hasChildren table = false → BlocksInside fmt tree.root.operands []) := by
  cases h64 : fmt.is64 with
  | true =>
      refine iff_of_false ?_ (fun h => nomatch h.1)
      rintro ⟨cu, r', hread, hend, -⟩
      exact readHeader_is64 h64 hr hread hend
  | false =>
      obtain ⟨hwritable, hoffset, hlength⟩ := htree h64
      let u : Unit32 := {
        fmt := fmt
        abbrevOffset := abbrevOffset
        body := tree.encode fmt table
        not_is64 := h64
        abbrevOffset_lt := hoffset
        length_lt := hlength }
      rw [and_iff_right rfl]
      by_cases hhandled : tree.Handled table
      · rw [and_iff_right hhandled]
        exact readsTree_spelled_iff (u := u) htable rfl hr hle har index
          (hwritable.spelled_of_handled hhandled)
      · refine iff_of_false ?_ fun h => hhandled h.1
        exact not_readsTree (u := u) htable rfl hr hle har index hwritable hhandled

/-- Abbreviations for a `DW_TAG_compile_unit` without children, with a number. -/
def leafAbbrevs : List AbbrevDecl :=
  [{ code := .byte 1, tag := .byte 0x11, children := false, specs := [(.byte 0x13, .byte 0x0f)] }]

/-- The unit alone, with the number `2 ^ 28` in five bytes. -/
def leafTree : Tree :=
  { root := {
      code := .byte 1
      operands := [.udata (.shifted 1 4)] }
    children := .nil }

/-- Its unit in version 4. -/
def leafUnit : Unit32 :=
  .ofBody .four (leafTree.encode .four leafAbbrevs) Format.four_is64 (by decide)

/-- An object with this unit and its abbreviations. -/
def leafObject : LinkObject :=
  .ofSections 0 0 ⟨4096, leafUnit.encode, by decide⟩ ⟨8192, encodeTable leafAbbrevs, by decide⟩

theorem leafAbbrevs_valid : ∀ d ∈ leafAbbrevs, d.Valid := by
  intro d hd
  obtain rfl := List.mem_singleton.mp hd
  exact ⟨by decide, by decide, by decide, by decide, by decide⟩

theorem leafTree_valid : leafTree.root.Valid Format.four leafObject leafAbbrevs
    (leafAbbrevs.head (by decide)).toAbbrev where
  lookup := rfl
  forms := rfl
  operands := by
    intro op hop
    obtain rfl := List.mem_singleton.mp hop
    exact ⟨trivial, show (2 : Nat) ^ 28 < 2 ^ 32 by decide⟩

/-- The unit of version 4 with one function is read, and so is the one without children. -/
theorem readsTree_iff_function :
    ReadsTree oneFunctionObject 0 twoAbbrevs oneFunction
        (oneFunctionObject.getSection .info).getContents
        (oneFunctionObject.getSection .abbrevs).getContents oneFunctionUnit.encode.length ∧
      ReadsTree leafObject 0 leafAbbrevs leafTree
        (leafObject.getSection .info).getContents
        (leafObject.getSection .abbrevs).getContents leafUnit.encode.length := by
  constructor
  · have hr : (oneFunctionObject.getSection .info).getContents.At
        (encodeUnit Format.four 0 (oneFunction.encode Format.four twoAbbrevs) ++ []) :=
      (oneFunctionObject.getSection .info).at_getContents.append_nil
    have har : (oneFunctionObject.getSection .abbrevs).getContents.bytes.drop 0 =
        encodeTable twoAbbrevs ++ [] := (List.append_nil _).symm
    exact (readsTree_iff twoAbbrevs_valid
      (fun _ => ⟨oneFunction_valid.spelled.writable, by decide, by decide⟩) hr (Nat.zero_le _) har
      0).mpr ⟨rfl, oneFunction_valid.spelled.handled, oneFunction_valid.readBack,
        fun h => absurd h (by decide)⟩
  · have hr : (leafObject.getSection .info).getContents.At
        (encodeUnit Format.four 0 (leafTree.encode Format.four leafAbbrevs) ++ []) :=
      (leafObject.getSection .info).at_getContents.append_nil
    have har : (leafObject.getSection .abbrevs).getContents.bytes.drop 0 =
        encodeTable leafAbbrevs ++ [] := (List.append_nil _).symm
    have hspelled : leafTree.Spelled Format.four leafObject leafAbbrevs :=
      ⟨⟨_, leafTree_valid.spelled⟩, fun _ => rfl, trivial⟩
    exact (readsTree_iff leafAbbrevs_valid
      (fun _ => ⟨hspelled.writable, by decide, by decide⟩) hr (Nat.zero_le _) har 0).mpr
      ⟨rfl, hspelled.handled, ⟨leafTree_valid.readBack, trivial⟩, fun _ => ⟨nofun, trivial⟩⟩

/-- The unit with one function in the 64-bit format. -/
def oneFunctionUnit64 : List UInt8 :=
  encodeUnit Format.three64 0 (oneFunction.body Format.three64 twoAbbrevs)

/-- Abbreviations for a unit and for a function with a `DW_FORM_ref_addr`. -/
def refAbbrevs : List AbbrevDecl :=
  [{ code := .byte 1, tag := .byte 0x11, children := true, specs := [] },
    { code := .byte 2, tag := .byte 0x2e, children := false, specs := [(.byte 0x31, .byte 0x10)] }]

/-- Two functions, each with a reference. -/
def twoRefs : Tree :=
  { root := { code := .byte 1, operands := [] }
    children := .cons { code := .byte 2, operands := [.refAddr 32] } .nil
      (.cons { code := .byte 2, operands := [.refAddr 48] } .nil .nil) }

/-- Their unit in version 2. -/
def twoRefsUnit : Unit32 := .ofBody .two (twoRefs.body .two refAbbrevs) Format.two_is64 (by decide)

/-- An object with this unit and its abbreviations. -/
def twoRefsObject : LinkObject :=
  .ofSections 0 0 ⟨4096, twoRefsUnit.encode, by decide⟩ ⟨8192, encodeTable refAbbrevs, by decide⟩

/-- In version 2 the upper halves of the references are taken for null entries, the first of which
ends the list of functions and the second the walk. -/
theorem preorder_twoRefs :
    (match (Walker.ofUnit ((twoRefsUnit.loaded { index := 0, linkObject := twoRefsObject }
        (twoRefsObject.getSection .info).getContents).readAbbrevs
          (twoRefsObject.getSection .abbrevs).getContents).1).preorder 5 with
      | .ok vs   => vs.length
      | .error _ => 0) = 2 := by
  decide +kernel

/-- Neither the unit in the 64-bit format nor the references in version 2 are read. -/
theorem readsTree_fails_in_other_formats :
    ¬ ReadsTree oneFunctionObject 0 twoAbbrevs oneFunction
        (.ofBuffer 4096 oneFunctionUnit64 (by decide))
        (oneFunctionObject.getSection .abbrevs).getContents oneFunctionUnit64.length ∧
      ¬ ReadsTree twoRefsObject 0 refAbbrevs twoRefs
        (twoRefsObject.getSection .info).getContents
        (twoRefsObject.getSection .abbrevs).getContents twoRefsUnit.encode.length := by
  constructor
  · rintro ⟨cu, r', hread, hend, -⟩
    have hr := (Reader.at_ofBuffer 4096 oneFunctionUnit64 (by decide)).append_nil
    exact readHeader_is64 rfl hr hread hend
  · rintro ⟨cu, r', hread, -, vs, ⟨n, hn⟩, hvs⟩
    have hr := (twoRefsObject.getSection .info).at_getContents.append_nil
    rw [readHeader_unit32 twoRefsUnit _ hr] at hread
    cases hread
    -- the walk has two entries with any fuel that is enough, and the tree has three
    have htwo := preorder_twoRefs
    split at htwo
    next us hus =>
      have hn' := hn (max n 5) (le_max_left _ _)
      rw [preorder_mono hus (le_max_right _ _)] at hn'
      cases hn'
      have hlen := congrArg List.length hvs
      rw [List.length_map, htwo] at hlen
      cases hlen
    · cases htwo

end NovaProva.Dwarf
