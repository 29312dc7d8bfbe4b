import NovaProva.Dwarf.Formats
import NovaProva.Dwarf.Moves

/-!
# Dwarf — The layout of a unit

The entries of a unit by what `read_entry` reads at their offsets, whatever forms and values its
attributes have: a list of siblings is laid out from one offset to another if the entries are read
one behind the other, each with its children behind it, up to a null entry.

A walker over such a list goes from each entry to the next, by the entry's `DW_AT_sibling` if it has
one that points there, and by levels otherwise, in any alternation (`moveNext_reaches`).  Of its
level only that it is the same as the entry's is used, so that it does not matter that a jump sets
it to 0.
-/

namespace NovaProva.Dwarf

open Walker

/-! ### Reading at an offset -/

/-- A reader of the unit, at an offset. -/
def CompileUnit.readerAt (cu : CompileUnit) (off : Nat) : Reader :=
  (Read.seek off cu.getContents).2

/-- `walker_t w(ref)`; `none` for the assertion of `seek`. -/
def Walker.ofReference (cus : List CompileUnit) (ref : Reference) : Option Walker :=
  (resolveReference cus ref).map fun res =>
    { compileUnit := res.1, reader := res.1.readerAt res.2 }

/-! ### Lists of siblings -/

/-- An entry: where it is, where its attributes end and where its children do, its abbreviation and
the values of its attributes. -/
structure Node where
  off : Nat
  next : Nat
  stop : Nat
  decl : Abbrev
  values : List Value

/-- A list of siblings, each with the list of its children. -/
inductive Nodes where
  | nil
  | cons (node : Node) (children siblings : Nodes)

/-- The value of an attribute: of several the last, and none for a name without a slot. -/
def Node.attribute (d : Node) (name : Nat) : Option Value :=
  if (Entry.nameToIndex name).isSome then lastOf d.decl.attrSpecs d.values name else none

/-- The entry as a walker shows it. -/
def Node.view (d : Node) (level : Nat) : EntryView where
  offset := d.off
  level := level
  tag := d.decl.tag
  getAttribute := d.attribute

/-- The bytes from `off` up to `next` are inside the unit. -/
structure CompileUnit.Inside (cu : CompileUnit) (off next : Nat) : Prop where
  lt : off < next
  le : next ≤ cu.getContents.bytes.length

/-- The entry is what is read where it is. -/
structure Node.IsRead (cu : CompileUnit) (d : Node) : Prop where
  inside : cu.Inside d.off d.next
  read : ∃ code r, Read.readUleb128 (cu.readerAt d.off) = (some code, r) ∧ code ≠ 0 ∧
    cu.getAbbrev code = some d.decl ∧
    readValues cu d.decl.attrSpecs r = some (d.values, cu.readerAt d.next)

/-- A null entry. -/
structure NullAt (cu : CompileUnit) (off next : Nat) : Prop where
  inside : cu.Inside off next
  read : Read.readUleb128 (cu.readerAt off) = (some 0, cu.readerAt next)

namespace Nodes

/-- The list is laid out in the unit from `start` on, and ends with a null entry before `stop`. -/
def Laid (cu : CompileUnit) : Nodes → Nat → Nat → Prop
  | nil, start, stop => NullAt cu start stop
  | cons d children siblings, start, stop =>
      d.off = start ∧ d.IsRead cu ∧
        (if d.decl.children = 0 then children = nil ∧ d.stop = d.next
          else children.Laid cu d.next d.stop) ∧
        siblings.Laid cu d.stop stop

/-- The list itself, without the children. -/
def toList : Nodes → List Node
  | nil => []
  | cons d _ siblings => d :: siblings.toList

/-- A `DW_AT_sibling` that is a reference points at what is behind the entry: its next sibling, or
the null entry that ends the list. -/
def Linked (cus : List CompileUnit) (cu : CompileUnit) (ds : Nodes) : Prop :=
  ∀ d ∈ ds.toList, ∀ ref, d.attribute dwAtSibling = some (.ref ref) →
    resolveReference cus ref = some (cu, d.stop)

end Nodes

/-! ### The size of a unit -/

theorem Reader.at_rest {r : Reader} (h : r.rest ≠ []) : r.At r.rest := by
  have hfits := r.fits
  rw [rest] at h ⊢
  split at h
  case isTrue hle =>
    have hlen := List.length_pos_iff.mpr h
    rw [List.length_drop] at hlen
    rw [if_pos hle]
    refine ⟨hle, ?_, if_pos hle⟩
    rw [end_, List.length_drop]
    omega
  · exact absurd rfl h

/-- What a number was read from. -/
theorem Reader.At.of_readLe {r r' : Reader} {s : List UInt8} {n v : Nat} (hat : r.At s)
    (hend : r.end_ + n < 2 ^ 64) (h : Read.readLe n r = (some v, r')) :
    ∃ bs t, s = bs ++ t ∧ bs.length = n ∧ v = Bytes.leNat bs ∧ r'.At t ∧ r'.end_ = r.end_ := by
  have hp := hat.end_eq
  rw [Read.readLe] at h
  split at h
  · cases h
  next hinside =>
    rw [Nat.mod_eq_of_lt (by omega)] at hinside
    have hlen : (s.take n).length = n := List.length_take_of_le (by omega)
    rw [hat.rest_eq] at h
    cases h
    have hat' : r.At (s.take n ++ s.drop n) := by rwa [List.take_append_drop]
    refine ⟨s.take n, s.drop n, (List.take_append_drop n s).symm, hlen, rfl, ?_, rfl⟩
    rw [← hlen]
    nth_rewrite 2 [hlen]
    exact hat'.setP

/-- The length of a unit of the 64-bit format, if it fits into the address space, ends with a 0,
where `header_length` has the root entry. -/
theorem rest_of_length64 {r r₁ r₂ : Reader} {length : Nat} (hend : r.end_ < 2 ^ 56)
    (h₁ : Read.readU32 r = (some 0xffffffff, r₁)) (h₂ : Read.readU64 r₁ = (some length, r₂))
    (hle : length ≤ r₂.getRemains) :
    length < 2 ^ 56 ∧ ∃ bs t, r.rest = bs ++ 0 :: t ∧ bs.length = headerLength := by
  have hne : r.rest ≠ [] := by
    intro hnil
    rw [Read.readU32, Read.readLe, hnil] at h₁
    split at h₁
    · cases h₁
    · cases h₁
  obtain ⟨as, t₁, hrest, has, -, hat₁, hend₁⟩ := (Reader.at_rest hne).of_readLe (by omega) h₁
  obtain ⟨cs, t₂, ht₁, hcs, hlength, hat₂, hend₂⟩ := hat₁.of_readLe (by omega) h₂
  rcases List.eq_nil_or_concat' cs with rfl | ⟨bs, b, rfl⟩
  · cases hcs
  rw [List.length_append, List.length_singleton] at hcs
  have hremains := hat₂.getRemains
  have hend_eq := hat₂.end_eq
  have hlt : length < 2 ^ 56 := by omega
  have hzero : b = 0 := by
    have htop : Bytes.leNat (bs ++ [b]) < 256 ^ bs.length := by
      rw [← hlength, Nat.succ.inj hcs]
      exact hlt
    exact Bytes.eq_zero_of_leNat_lt htop
  refine ⟨hlt, as ++ bs, t₂, ?_, ?_⟩
  · rw [hrest, ht₁, hzero]
    simp
  · rw [List.length_append, headerLength]
    omega

/-- **A unit with a root entry has less than 4 GiB**: it is of the 32-bit format. -/
theorem CompileUnit.size_lt {cu₀ cu₁ cu : CompileUnit} {r r' : Reader}
    (h : cu₀.readHeader r = .ok (some cu₁, r')) (hreader : cu.reader = cu₁.reader)
    (hend : r.end_ < 2 ^ 56) {d : Node} (hd : d.IsRead cu) (hoff : d.off = headerLength) :
    cu.getContents.bytes.length < 2 ^ 32 := by
  obtain ⟨length, is64, r₁, h₁, hremains, -, hr, -⟩ := readHeader_some h
  have hbytes : cu.getContents.bytes = r.rest.take ((length + lengthFieldSize is64) % 2 ^ 64) := by
    rw [CompileUnit.getContents, Read.skip, hreader, hr]
    split
    · rfl
    · rfl
  rcases (readInitialLength_some h₁).2 with ⟨rfl, hlt⟩ | ⟨rfl, r₂, h₂, h₃⟩
  · have htake := List.length_take_le ((length + lengthFieldSize false) % 2 ^ 64) r.rest
    rw [hbytes]
    rw [lengthFieldSize, if_neg Bool.false_ne_true] at htake ⊢
    omega
  · -- the code of the root entry is 0
    obtain ⟨hlt, bs, t, hrest, hbs⟩ := rest_of_length64 hend h₂ h₃ hremains
    obtain ⟨code, r₃, hcode, hne, -⟩ := hd.read
    have hinside := hd.inside.lt
    have hinside' := hd.inside.le
    have hat : (cu.readerAt d.off).At (cu.getContents.bytes.drop d.off) :=
      cu.getContents.at_seek (by omega)
    have htotal : (length + lengthFieldSize true) % 2 ^ 64 = headerLength + (length + 1) := by
      rw [lengthFieldSize, if_pos rfl, headerLength]
      omega
    rw [hbytes, htotal, hoff, hrest, ← hbs, List.take_length_add_append, List.drop_left,
      List.take_succ_cons] at hat
    rw [hoff, ← hbs, Read.readUleb128, hat.rest_eq] at hcode
    cases hcode
    exact absurd rfl hne
/-! ### Walkers -/

section
variable {cus : List CompileUnit} {cu : CompileUnit}

/-- The walker stands before the offset `off`, at the level `level`. -/
structure Stands (cu : CompileUnit) (w : Walker) (off level : Nat) : Prop where
  compileUnit : w.compileUnit = cu
  reader : w.reader = cu.readerAt off
  level : w.level = level
  filterTag : w.filterTag = 0
  bounded : w.entry.Bounded
  /-- the generations do not run out -/
  room : w.entry.latest + cu.getContents.bytes.length < off + 2 ^ 32

/-- The walker has read the entry `d`, at the level `level`. -/
structure AtNode (cu : CompileUnit) (w : Walker) (d : Node) (level : Nat) : Prop where
  view : w.view = d.view level
  abbrev? : w.entry.abbrev? = some d.decl
  stands : Stands cu w d.next (if d.decl.children ≠ 0 then level + 1 else level)

theorem CompileUnit.getOffset_readerAt {off : Nat} (h : off ≤ cu.getContents.bytes.length) :
    (cu.readerAt off).getOffset = off := by
  have hat : (cu.readerAt off).At _ := cu.getContents.at_seek h
  have hfits := cu.getContents.fits
  have hseek : cu.readerAt off = cu.getContents.setP (cu.getContents.base + off) :=
    congrArg Prod.snd (cu.getContents.seek_eq h)
  rw [hat.getOffset, hseek, Reader.setP_p _ (by omega)]
  exact Nat.add_sub_cancel_left ..

/-- The walker has read the entry `d`, at the level `level`, whether or not there are generations
left for the rest of the unit. -/
structure Shows (cu : CompileUnit) (w : Walker) (d : Node) (level : Nat) : Prop where
  view : w.view = d.view level
  abbrev? : w.entry.abbrev? = some d.decl
  compileUnit : w.compileUnit = cu
  reader : w.reader = cu.readerAt d.next
  level : w.level = if d.decl.children ≠ 0 then level + 1 else level
  filterTag : w.filterTag = 0
  bounded : w.entry.Bounded

theorem AtNode.shows {w : Walker} {d : Node} {level : Nat} (hat : AtNode cu w d level) :
    Shows cu w d level :=
  ⟨hat.view, hat.abbrev?, hat.stands.compileUnit, hat.stands.reader, hat.stands.level,
    hat.stands.filterTag, hat.stands.bounded⟩

/-- **`read_entry` reads the entry** that is where the reader is. -/
theorem readEntry_node {w : Walker} {d : Node} (hunit : w.compileUnit = cu)
    (hreader : w.reader = cu.readerAt d.off) (hfilter : w.filterTag = 0)
    (hbounded : w.entry.Bounded) (hlatest : w.entry.latest + 1 < 2 ^ 32) (hd : d.IsRead cu)
    (hsize : cu.getContents.bytes.length < 2 ^ 32) :
    ∃ w', w.readEntry = .ok (.ok, w') ∧ Shows cu w' d w.level ∧
      w'.entry.latest = w.entry.latest + 1 := by
  obtain ⟨code, r, hcode, hne, habbrev, hvalues⟩ := hd.read
  have habbrev' : w.compileUnit.getAbbrev code = some d.decl := by
    rw [hunit]
    exact habbrev
  have hlt := hd.inside.lt
  have hle := hd.inside.le
  have hoff : w.reader.getOffset = d.off := by
    rw [hreader]
    exact CompileUnit.getOffset_readerAt (by omega)
  have hattrs := readAttributes_of_readValues
    (w := { w with reader := r, entry := w.entry.setup d.off w.level d.decl })
    (by rw [hunit]; exact hvalues)
  have hbody : readBody { w with reader := r } d.off d.decl = .ok (.ok, { w with
      reader := cu.readerAt d.next
      entry := (w.entry.setup d.off w.level d.decl).addValues d.decl.attrSpecs d.values }) := by
    rw [readBody, if_neg (fun hf => hf.1 hfilter)]
    exact hattrs
  have hframe := Entry.addValues_frame d.decl.attrSpecs d.values
    (w.entry.setup d.off w.level d.decl)
  refine ⟨{ w with
    reader := cu.readerAt d.next
    entry := (w.entry.setup d.off w.level d.decl).addValues d.decl.attrSpecs d.values
    level := if d.decl.children ≠ 0 then w.level + 1 else w.level }, ?_,
    ⟨?_, hframe.2.2.1, hunit, rfl, rfl, hfilter,
      (bounded_setup hbounded hlatest _ _ _).addValues _ _⟩, ?_⟩
  · rw [Walker.readEntry, hreader, hcode]
    dsimp only
    rw [if_neg hne, habbrev']
    dsimp only
    rw [← hreader, hoff, hbody]
    dsimp only
    split
    · rfl
    · rfl
  · rw [view_addValues hbounded hlatest (by omega) rfl]
    rfl
  · rw [hframe.2.2.2, Entry.setup, Nat.mod_eq_of_lt hlatest]

theorem Stands.readEntry {w : Walker} {d : Node} {level : Nat} (h : Stands cu w d.off level)
    (hd : d.IsRead cu) (hsize : cu.getContents.bytes.length < 2 ^ 32) :
    ∃ w', w.readEntry = .ok (.ok, w') ∧ AtNode cu w' d level := by
  have hlt := hd.inside.lt
  have hle := hd.inside.le
  have hroom := h.room
  obtain ⟨w', hread, hshows, hlatest⟩ :=
    readEntry_node h.compileUnit h.reader h.filterTag h.bounded (by omega) hd hsize
  rw [h.level] at hshows
  refine ⟨w', hread, hshows.view, hshows.abbrev?, hshows.compileUnit, hshows.reader,
    hshows.level, hshows.filterTag, hshows.bounded, ?_⟩
  omega

/-- A null entry ends the list of the children. -/
theorem Stands.readNull {w : Walker} {off next level : Nat} (h : Stands cu w off (level + 1))
    (hnull : NullAt cu off next) :
    ∃ w', w.readEntry = .ok (.eol, w') ∧ Stands cu w' next level := by
  have hlt := hnull.inside.lt
  have hroom := h.room
  refine ⟨{ w with reader := cu.readerAt next, level := level }, ?_, h.compileUnit, rfl, rfl,
    h.filterTag, h.bounded, ?_⟩
  · rw [Walker.readEntry, h.reader, hnull.read]
    dsimp only
    rw [if_pos rfl, if_neg (by rw [h.level]; exact Nat.succ_ne_zero _), h.level]
    rfl
  · show w.entry.latest + _ < _
    omega

/-- At the level 0 a null entry ends what there is to read. -/
theorem Stands.readNull_zero {w : Walker} {off next : Nat} (h : Stands cu w off 0)
    (hnull : NullAt cu off next) : ∃ w', w.readEntry = .ok (.eof, w') := by
  refine ⟨{ w with reader := cu.readerAt next }, ?_⟩
  rw [Walker.readEntry, h.reader, hnull.read]
  dsimp only
  rw [if_pos rfl, if_pos h.level]

/-! ### Moves -/

/-- **A list of deeper entries is skipped**, with the null entry that ends it. -/
theorem Nodes.Laid.skips {ds : Nodes} {target off stop level : Nat}
    (hsize : cu.getContents.bytes.length < 2 ^ 32) (h : ds.Laid cu off stop) {w : Walker}
    (hw : Stands cu w off (level + 1)) (htarget : target ≤ level) :
    ∃ w', SkipsTo target w w' ∧ Stands cu w' stop level := by
  induction ds generalizing off stop level w with
  | nil =>
      obtain ⟨w', hread, hstands⟩ := hw.readNull h
      exact ⟨w', .null (by rw [hw.level]; omega) hread, hstands⟩
  | cons d children siblings ihc ihs =>
      obtain ⟨rfl, hd, hchildren, hsiblings⟩ := h
      obtain ⟨w₁, hread, hat⟩ := hw.readEntry hd hsize
      have hlevel : w₁.entry.level = level + 1 := congrArg EntryView.level hat.view
      have hskip : SkipsTo target w w₁ :=
        .entry (by rw [hw.level]; omega) hread (by rw [hlevel]; omega)
      have hstands := hat.stands
      by_cases hleaf : d.decl.children = 0
      · rw [if_pos hleaf] at hchildren
        rw [if_neg (not_not.mpr hleaf), ← hchildren.2] at hstands
        obtain ⟨w₂, hskip₂, hstands₂⟩ := ihs hsiblings hstands htarget
        exact ⟨w₂, hskip.trans hskip₂, hstands₂⟩
      · rw [if_neg hleaf] at hchildren
        rw [if_pos hleaf] at hstands
        obtain ⟨w₂, hskip₂, hstands₂⟩ := ihc hchildren hstands (Nat.le_succ_of_le htarget)
        obtain ⟨w₃, hskip₃, hstands₃⟩ := ihs hsiblings hstands₂ htarget
        exact ⟨w₃, hskip.trans (hskip₂.trans hskip₃), hstands₃⟩

theorem Nodes.Laid.lt {ds : Nodes} {off stop : Nat} (h : ds.Laid cu off stop) : off < stop := by
  induction ds generalizing off stop with
  | nil => exact h.inside.lt
  | cons d children siblings ihc ihs =>
      obtain ⟨rfl, hd, hchildren, hsiblings⟩ := h
      have hlt := hd.inside.lt
      have hrest := ihs hsiblings
      by_cases hleaf : d.decl.children = 0
      · rw [if_pos hleaf] at hchildren
        omega
      · rw [if_neg hleaf] at hchildren
        have hbelow := ihc hchildren
        omega

/-- Its entries are read where they are, one behind the other. -/
theorem Nodes.Laid.entries {ds : Nodes} {off stop : Nat} (h : ds.Laid cu off stop) :
    (∀ d ∈ ds.toList, off ≤ d.off ∧ d.IsRead cu) ∧
      ds.toList.Pairwise fun d d' => d.off < d'.off := by
  induction ds generalizing off stop with
  | nil => exact ⟨fun _ hd => absurd hd List.not_mem_nil, .nil⟩
  | cons d children siblings _ ih =>
      obtain ⟨rfl, hd, hchildren, hsiblings⟩ := h
      have hlt := hd.inside.lt
      have hle : d.next ≤ d.stop := by
        split at hchildren
        · exact hchildren.2.ge
        · exact hchildren.lt.le
      obtain ⟨hall, hpairwise⟩ := ih hsiblings
      refine ⟨List.forall_mem_cons.mpr ⟨⟨Nat.le_refl _, hd⟩, fun d' hd' => ?_⟩,
        List.pairwise_cons.mpr ⟨fun d' hd' => ?_, hpairwise⟩⟩
      · have hoff := (hall d' hd').1
        exact ⟨by omega, (hall d' hd').2⟩
      · have hoff := (hall d' hd').1
        omega

/-- The children of an entry, behind its attributes. -/
def Node.Below (cu : CompileUnit) (d : Node) (children : Nodes) : Prop :=
  if d.decl.children = 0 then children = .nil ∧ d.stop = d.next
  else children.Laid cu d.next d.stop

/-- A list below an entry is empty or laid out behind it. -/
theorem Node.Below.cases {d : Node} {children : Nodes} (h : d.Below cu children) :
    children = .nil ∨ children.Laid cu d.next d.stop := by
  rw [Node.Below] at h
  split at h
  · exact .inl h.1
  · exact .inr h

theorem Node.Below.le {d : Node} {children : Nodes} (h : d.Below cu children) :
    d.next ≤ d.stop := by
  rw [Node.Below] at h
  split at h
  · exact h.2.ge
  · exact h.lt.le

theorem Node.Below.entries {d : Node} {children : Nodes} (h : d.Below cu children) :
    (∀ d' ∈ children.toList, d'.IsRead cu) ∧
      children.toList.Pairwise fun d d' => d.off < d'.off := by
  rcases h.cases with rfl | h
  · exact ⟨fun _ hd => absurd hd List.not_mem_nil, .nil⟩
  · obtain ⟨hall, hpairwise⟩ := Nodes.Laid.entries h
    exact ⟨fun d' hd' => (hall d' hd').2, hpairwise⟩

/-- From an entry the loop of `move_next` comes behind its children. -/
theorem AtNode.skips {w : Walker} {d : Node} {children : Nodes} {level : Nat}
    (hsize : cu.getContents.bytes.length < 2 ^ 32) (hat : AtNode cu w d level)
    (hchildren : d.Below cu children) :
    ∃ w', SkipsTo level w w' ∧ Stands cu w' d.stop level := by
  have hstands := hat.stands
  rw [Node.Below] at hchildren
  by_cases hleaf : d.decl.children = 0
  · rw [if_pos hleaf] at hchildren
    rw [if_neg (not_not.mpr hleaf), ← hchildren.2] at hstands
    exact ⟨w, .refl _ _, hstands⟩
  · rw [if_neg hleaf] at hchildren
    rw [if_pos hleaf] at hstands
    exact hchildren.skips hsize hstands (Nat.le_refl level)

/-- What `move_down` and `move_next` return before a list of siblings: its first entry, at some
level, or that there is none. -/
def Reached (cu : CompileUnit) (found : Bool) (w : Walker) : Nodes → Prop
  | .nil => found = false
  | .cons d _ _ => found = true ∧ ∃ level, AtNode cu w d level

/-- What `read_entry` reads before a list of siblings. -/
def ReadsFirst (cu : CompileUnit) (w : Walker) (level : Nat) : Nodes → Prop
  | .nil => ∃ res w', w.readEntry = .ok (res, w') ∧ (res = .eof ∨ res = .eol ∧ w'.level < level)
  | .cons d _ _ => ∃ w', w.readEntry = .ok (.ok, w') ∧ AtNode cu w' d level

theorem Nodes.Laid.readsFirst {ds : Nodes} {off stop level : Nat}
    (hsize : cu.getContents.bytes.length < 2 ^ 32) (h : ds.Laid cu off stop) {w : Walker}
    (hw : Stands cu w off level) : ReadsFirst cu w level ds := by
  cases ds with
  | nil =>
      cases level with
      | zero =>
          obtain ⟨w', hread⟩ := hw.readNull_zero h
          exact ⟨_, w', hread, .inl rfl⟩
      | succ level =>
          obtain ⟨w', hread, hstands⟩ := hw.readNull h
          exact ⟨_, w', hread, .inr ⟨rfl, by rw [hstands.level]; omega⟩⟩
  | cons d children siblings =>
      obtain ⟨rfl, hd, -⟩ := h
      exact hw.readEntry hd hsize

/-- `move_to` reaches the list it is sent to. -/
theorem moveTo_reaches {ds : Nodes} {off stop : Nat} {ref : Reference} {w : Walker}
    (hsize : cu.getContents.bytes.length < 2 ^ 32) (h : ds.Laid cu off stop)
    (href : resolveReference cus ref = some (cu, off)) (hfilter : w.filterTag = 0)
    (hbounded : w.entry.Bounded)
    (hroom : w.entry.latest + cu.getContents.bytes.length < off + 2 ^ 32) :
    ∃ found w', moveTo cus ref w = .ok (found, w') ∧ Reached cu found w' ds := by
  have hstands : Stands cu { w with compileUnit := cu, reader := cu.readerAt off, level := 0 }
    off 0 := ⟨rfl, rfl, rfl, hfilter, hbounded, hroom⟩
  have hread := h.readsFirst hsize hstands
  have hseek : w.seek cus ref =
      some { w with compileUnit := cu, reader := cu.readerAt off, level := 0 } := by
    rw [Walker.seek, href]
    rfl
  rw [moveTo, hseek]
  cases ds with
  | nil =>
      obtain ⟨res, w', hread, hres⟩ := hread
      refine ⟨false, w', ?_, rfl⟩
      dsimp only
      rw [hread]
      rcases hres with rfl | ⟨rfl, -⟩
      · rfl
      · rfl
  | cons d children siblings =>
      obtain ⟨w', hread, hat⟩ := hread
      refine ⟨true, w', ?_, rfl, 0, hat⟩
      dsimp only
      rw [hread]

/-- The loop of `move_next` reaches the list it skips to. -/
theorem moveNextLoop_reaches {ds : Nodes} {off stop level : Nat} {w w₁ : Walker}
    (hsize : cu.getContents.bytes.length < 2 ^ 32) (h : ds.Laid cu off stop)
    (hskip : SkipsTo level w w₁) (hw₁ : Stands cu w₁ off level) :
    ∃ n found w', moveNextLoop level n w = .ok (found, w') ∧ Reached cu found w' ds := by
  obtain ⟨k, hk⟩ := hskip
  have hread := h.readsFirst hsize hw₁
  have hnot : ¬ w₁.level < level := by
    rw [hw₁.level]
    omega
  cases ds with
  | nil =>
      obtain ⟨res, w', hread, hres⟩ := hread
      rcases hres with rfl | ⟨rfl, hlevel⟩
      · refine ⟨1 + k, false, w', ?_, rfl⟩
        rw [hk, moveNextLoop, if_neg hnot, hread]
      · refine ⟨2 + k, false, { w' with
          entry := w'.entry.partialSetupAt w'.entry.offset (level - 1) }, ?_, rfl⟩
        rw [hk, moveNextLoop, if_neg hnot, hread]
        dsimp only
        rw [moveNextLoop, if_pos hlevel]
  | cons d children siblings =>
      obtain ⟨w', hread, hat⟩ := hread
      have hlevel : w'.entry.level = level := congrArg EntryView.level hat.view
      refine ⟨1 + k, true, w', ?_, rfl, level, hat⟩
      rw [hk, moveNextLoop, if_neg hnot, hread]
      dsimp only
      rw [if_pos hlevel]

/-- **`move_next` reaches the next sibling**, by a jump or by levels. -/
theorem moveNext_reaches {w : Walker} {d : Node} {children siblings : Nodes} {level stop : Nat}
    (hsize : cu.getContents.bytes.length < 2 ^ 32) (hat : AtNode cu w d level)
    (hchildren : d.Below cu children)
    (hsiblings : siblings.Laid cu d.stop stop)
    (hlinked : ∀ ref, d.attribute dwAtSibling = some (.ref ref) →
      resolveReference cus ref = some (cu, d.stop)) :
    ∃ n found w', moveNext cus n w = .ok (found, w') ∧ Reached cu found w' siblings := by
  have hattr : w.entry.getAttribute dwAtSibling = d.attribute dwAtSibling :=
    congrArg (fun v => v.getAttribute dwAtSibling) hat.view
  have hlevel : w.entry.level = level := congrArg EntryView.level hat.view
  obtain ⟨w₁, hskip, hw₁⟩ := hat.skips hsize hchildren
  obtain ⟨n, found, w', hloop, hreached⟩ := moveNextLoop_reaches hsize hsiblings hskip hw₁
  -- without a reference the entry is left by levels
  have hlevels : (∀ n, moveNext cus n w = moveNextLoop w.entry.level n w) →
      ∃ n found w', moveNext cus n w = .ok (found, w') ∧ Reached cu found w' siblings := by
    intro hnext
    refine ⟨n, found, w', ?_, hreached⟩
    rw [hnext, hlevel]
    exact hloop
  cases hv : d.attribute dwAtSibling with
  | none => exact hlevels fun n => by rw [moveNext, hattr, hv]
  | some v =>
      cases v with
      | ref ref =>
          have hroom := hat.stands.room
          have hle := hchildren.le
          obtain ⟨found, w', hmove, hreached⟩ := moveTo_reaches hsize hsiblings (hlinked ref hv)
            hat.stands.filterTag hat.stands.bounded (by omega)
          refine ⟨0, found, w', ?_, hreached⟩
          rw [moveNext, hattr, hv]
          exact hmove
      | _ => exact hlevels fun n => by rw [moveNext, hattr, hv]

/-- `move_down` reaches the first child. -/
theorem moveDown_reaches {w : Walker} {d : Node} {children : Nodes} {level : Nat}
    (hsize : cu.getContents.bytes.length < 2 ^ 32) (hat : AtNode cu w d level)
    (hchildren : d.Below cu children) :
    ∃ found w', moveDown w = .ok (found, w') ∧ Reached cu found w' children := by
  have hstands := hat.stands
  rw [Node.Below] at hchildren
  by_cases hleaf : d.decl.children = 0
  · rw [if_pos hleaf] at hchildren
    obtain ⟨rfl, -⟩ := hchildren
    refine ⟨false, w, ?_, rfl⟩
    rw [moveDown, hat.abbrev?]
    exact if_pos hleaf
  rw [if_neg hleaf] at hchildren
  rw [if_pos hleaf] at hstands
  have hread := hchildren.readsFirst hsize hstands
  rw [moveDown, hat.abbrev?]
  dsimp only
  rw [if_neg hleaf]
  cases children with
  | nil =>
      obtain ⟨res, w', hread, hres⟩ := hread
      refine ⟨false, w', ?_, rfl⟩
      rw [hread]
      rcases hres with rfl | ⟨rfl, -⟩
      · rfl
      · rfl
  | cons d children siblings =>
      obtain ⟨w', hread, hat'⟩ := hread
      refine ⟨true, w', ?_, rfl, level + 1, hat'⟩
      rw [hread]

/-- The first `move_next` of a new walker reaches the entry it was made for. -/
theorem moveNext_first {ref : Reference} {d : Node} (hsize : cu.getContents.bytes.length < 2 ^ 32)
    (href : resolveReference cus ref = some (cu, d.off)) (hd : d.IsRead cu) :
    ∃ w w', ofReference cus ref = some w ∧ (∀ n, moveNext cus (n + 1) w = .ok (true, w')) ∧
      Shows cu w' d 0 ∧ w'.entry.latest = 1 := by
  have hone : (0 : Nat) + 1 < 2 ^ 32 := by decide
  obtain ⟨w', hread, hshows, hnext⟩ :=
    readEntry_node (w := { compileUnit := cu, reader := cu.readerAt d.off })
      rfl rfl rfl (fun _ => Nat.le_refl 0) hone hd hsize
  have hlevel : w'.entry.level = 0 := congrArg EntryView.level hshows.view
  refine ⟨_, w', by rw [ofReference, href]; rfl, fun n => ?_, hshows, hnext⟩
  -- the attributes of a new entry are undefined values
  have hloop : moveNext cus (n + 1) { compileUnit := cu, reader := cu.readerAt d.off } =
      moveNextLoop 0 (n + 1) { compileUnit := cu, reader := cu.readerAt d.off } := rfl
  rw [hloop, moveNextLoop, if_neg (Nat.lt_irrefl 0), hread]
  dsimp only
  rw [if_pos hlevel]

theorem moveNext_ofReference {ref : Reference} {d : Node}
    (hsize : cu.getContents.bytes.length < 2 ^ 32)
    (href : resolveReference cus ref = some (cu, d.off)) (hd : d.IsRead cu) (n : Nat) :
    ∃ w w', ofReference cus ref = some w ∧ moveNext cus (n + 1) w = .ok (true, w') ∧
      AtNode cu w' d 0 := by
  obtain ⟨w, w', hw, hmove, hshows, hlatest⟩ := moveNext_first hsize href hd
  have hlt := hd.inside.lt
  refine ⟨w, w', hw, hmove n, hshows.view, hshows.abbrev?, hshows.compileUnit, hshows.reader,
    hshows.level, hshows.filterTag, hshows.bounded, ?_⟩
  omega

end

/-! ### Trees as they are written -/

section
variable {fmt : Format} {table : List AbbrevDecl} {cu : CompileUnit}

/-- The unit is of the format `fmt` and has the abbreviations of `table`. -/
structure CompileUnit.Holds (fmt : Format) (table : List AbbrevDecl) (cu : CompileUnit) :
    Prop where
  version : cu.version = fmt.version
  is64 : cu.getContents.is64 = fmt.is64
  getAbbrev : ∀ code, cu.getAbbrev code = lookupAbbrev table code
  abbrevs_valid : ∀ d ∈ table, d.Valid

/-- The bytes of the unit from `off` on are `s`. -/
structure CompileUnit.HasAt (cu : CompileUnit) (off : Nat) (s : List UInt8) : Prop where
  le : off ≤ cu.getContents.bytes.length
  drop_eq : cu.getContents.bytes.drop off = s

namespace CompileUnit.HasAt

variable {off : Nat} {bs s : List UInt8}

theorem reader (h : cu.HasAt off s) : (cu.readerAt off).At s := by
  rw [← h.drop_eq]
  exact cu.getContents.at_seek h.le

theorem is64 (h : cu.HasAt off s) : (cu.readerAt off).is64 = cu.getContents.is64 := by
  rw [readerAt, cu.getContents.seek_eq h.le]
  rfl

theorem length_eq (h : cu.HasAt off s) : off + s.length = cu.getContents.bytes.length := by
  have hle := h.le
  rw [← h.drop_eq, List.length_drop]
  omega

theorem next (h : cu.HasAt off (bs ++ s)) : cu.HasAt (off + bs.length) s := by
  have hlen := h.length_eq
  rw [List.length_append] at hlen
  refine ⟨by omega, ?_⟩
  rw [← List.drop_drop, h.drop_eq, List.drop_left]

theorem setP (h : cu.HasAt off (bs ++ s)) :
    (cu.readerAt off).setP ((cu.readerAt off).p + bs.length) = cu.readerAt (off + bs.length) := by
  rw [readerAt, readerAt, cu.getContents.seek_eq h.le, cu.getContents.seek_eq h.next.le]
  dsimp only
  rw [Reader.setP_setP, Nat.add_assoc]

theorem inside (h : cu.HasAt off (bs ++ s)) (hbs : bs ≠ []) :
    cu.Inside off (off + bs.length) := by
  have hpos := List.length_pos_iff.mpr hbs
  exact ⟨by omega, h.next.le⟩

theorem nullAt (h : cu.HasAt off (0 :: s)) : NullAt cu off (off + 1) := by
  have hbytes : cu.HasAt off ([0] ++ s) := h
  refine ⟨hbytes.inside (List.cons_ne_nil 0 []), ?_⟩
  rw [Read.readUleb128, h.reader.rest_eq]
  exact congrArg (Prod.mk (some 0)) hbytes.setP

end CompileUnit.HasAt

variable (fmt table cu) in
/-- The entry at an offset. -/
def Die.node (d : Die) (off : Nat) (children : Dies) : Node where
  off := off
  next := off + (d.encode fmt).length
  stop := off + d.extent fmt table children
  decl := (lookupAbbrev table d.code.toNat).getD
    { code := 0, tag := 0, children := 0, attrSpecs := [] }
  values := d.operands.map (Operand.value cu.linkObject cu.index)

variable (fmt table cu) in
/-- The entries of a list of siblings that starts at an offset. -/
def Dies.nodes : Nat → Dies → Nodes
  | _,   .nil => .nil
  | off, .cons d children siblings =>
      .cons (d.node fmt table cu off children)
        (Dies.nodes (off + (d.encode fmt).length) children)
        (Dies.nodes (off + d.extent fmt table children) siblings)

/-- An entry is read as it is written. -/
theorem Die.isRead (hcu : cu.Holds fmt table) {d : Die} {a : Abbrev}
    (hd : d.Valid fmt cu.linkObject table a) {off : Nat} {s : List UInt8} (hs : 1 ≤ s.length)
    (h : cu.HasAt off (d.encode fmt ++ s)) (children : Dies) :
    (d.node fmt table cu off children).IsRead cu := by
  have hpos := d.code.length_pos
  have hdecl : (d.node fmt table cu off children).decl = a := by
    rw [Die.node, hd.lookup]
    rfl
  have hne : d.encode fmt ≠ [] := by
    refine List.length_pos_iff.mp ?_
    rw [d.length_encode, Leb.length_bytes]
    omega
  obtain ⟨hcode, hlt⟩ := lookupAbbrev_code hcu.abbrevs_valid hd.lookup
  have hat := h.reader
  rw [Die.encode, List.append_assoc] at hat
  have hread := (Reads.readUleb128 hlt).run hat
  have hoperands : ∀ pre op post, d.operands = pre ++ op :: post →
      ∃ x, readForm cu op.form = some x ∧
        Reads ((cu.readerAt off).setP ((cu.readerAt off).p + d.code.bytes.length)).is64
          (post.flatMap (Operand.encode fmt) ++ s).length x (op.encode fmt)
          (op.value cu.linkObject cu.index) := by
    intro pre op post hsplit
    have hop := hd.operands op (by simp [hsplit])
    rw [Reader.setP_is64, h.is64, hcu.is64, ← hop.readValue_eq]
    refine readForm_operand hcu.version op hop.1 fun _ => ?_
    rw [List.length_append]
    omega
  refine ⟨h.inside hne, d.code.toNat, _, hread, hcode, ?_, ?_⟩
  · rw [hcu.getAbbrev, hd.lookup, hdecl]
  · rw [hdecl, readValues_reads _ _ hd.forms hoperands hat.setP, d.setP_encode, h.setP]
    rfl

/-- So are its children, if they are. -/
theorem Die.node_below {d : Die} {a : Abbrev} (hd : d.Valid fmt cu.linkObject table a)
    {children : Dies} (hleaf : d.hasChildren table = false → children = .nil) {off : Nat}
    {s : List UInt8} (h : cu.HasAt (off + (d.encode fmt).length) (d.below fmt table children ++ s))
    (hchildren : ∀ {off s}, cu.HasAt off (children.encode fmt table ++ 0 :: s) →
      (children.nodes fmt table cu off).Laid cu off
        (off + (children.encode fmt table).length + 1)) :
    (d.node fmt table cu off children).Below cu
      (children.nodes fmt table cu (off + (d.encode fmt).length)) := by
  have hdecl : (d.node fmt table cu off children).decl = a := by
    rw [Die.node, hd.lookup]
    rfl
  rw [Node.Below, hdecl, Die.node, d.extent_eq]
  rw [Die.below] at h ⊢
  by_cases hzero : a.children = 0
  · have hno : d.hasChildren table = false := by
      rw [hd.hasChildren_eq]
      exact decide_eq_false (not_not.mpr hzero)
    rw [if_pos hzero, hleaf hno, hno]
    exact ⟨rfl, rfl⟩
  · have hyes : d.hasChildren table = true := by
      rw [hd.hasChildren_eq]
      exact decide_eq_true hzero
    rw [hyes, if_pos rfl, List.append_assoc] at h
    rw [if_neg hzero, hyes, if_pos rfl, List.length_append, ← Nat.add_assoc]
    exact hchildren h

/-- **A list of siblings is laid out as it is written.** -/
theorem Dies.laid (hcu : cu.Holds fmt table) {ds : Dies} (hds : ds.Valid fmt cu.linkObject table)
    {off : Nat} {s : List UInt8} (h : cu.HasAt off (ds.encode fmt table ++ 0 :: s)) :
    (ds.nodes fmt table cu off).Laid cu off (off + (ds.encode fmt table).length + 1) := by
  induction ds generalizing off s with
  | nil => exact h.nullAt
  | cons d children siblings ihc ihs =>
      obtain ⟨⟨a, hd⟩, hleaf, hchildren, hsiblings⟩ := hds
      rw [Dies.encode_cons] at h
      have hbelow := h.next
      have hnext := hbelow.next
      rw [Nat.add_assoc, ← Die.extent_eq] at hnext
      have hs : 1 ≤ (d.below fmt table children ++
          (siblings.encode fmt table ++ 0 :: s)).length := by
        simp only [List.length_append, List.length_cons]
        omega
      refine ⟨rfl, Die.isRead hcu hd hs h children,
        Die.node_below hd hleaf hbelow (ihc hchildren), ?_⟩
      rw [Dies.length_encode_cons, ← Nat.add_assoc]
      exact ihs hsiblings hnext

end

end NovaProva.Dwarf
