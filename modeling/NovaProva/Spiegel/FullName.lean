import NovaProva.Spiegel.Functions

/-!
# Spiegel — FullName

`walker_t::get_path` and `move_up`, and `state_t::get_full_name` over them.  An entry does not say
where its parent is: the unit is read from its start, with the references of the entries that are
open kept in a vector, until the entry itself is read.

* `Nodes.PathTo`: the entries on the way down to an entry.
* `getPath_eq`: `get_path` returns them.
* `Chain`: from an entry to its specification if it has one, to the parent of that, and so on.
* `getFullName_eq`: the names along a chain, joined.

The loop of `get_full_name` joins two names with `"::"` only if there is text behind them.  So a
name that is there and is empty leaves no `"::"` behind the names of the entries above it.
-/

namespace NovaProva.Dwarf

open Walker

/-- `DW_AT_specification`. -/
def dwAtSpecification : Nat := 0x47
/-- `DW_TAG_compile_unit`. -/
def dwTagCompileUnit : Nat := 0x11

/-! ### Moving up -/

/-- `get_reference_attribute`. -/
def Entry.getReferenceAttribute (e : Entry) (name : Nat) : Reference :=
  match e.getAttribute name with
  | some (.ref ref) => ref
  | _               => Reference.null

namespace Walker

/-- The loop of `get_path` of a walker with the reference `ref`, for the walker `w2`.  The fuel
bounds the calls of `read_entry`. -/
def getPathLoop (ref : Reference) :
    Nat → Walker → List Reference → Except MoveError (List Reference)
  | 0,     _,  _    => .error .outOfFuel
  | n + 1, w2, path =>
    match w2.readEntry with
    | .error f        => .error (.fatal f)
    | .ok (.eof, _)   => .ok path
    | .ok (.eol, w2') => getPathLoop ref n w2' path.dropLast
    | .ok (_, w2')    =>
      -- filtered entries are treated like others
      if ref = w2'.getReference then .ok (path ++ [w2'.getReference])
      else
        match w2'.entry.abbrev? with
        | none   => .error .nullAbbrev
        | some a =>
          if a.children = 0 then getPathLoop ref n w2' (path ++ [w2'.getReference]).dropLast
          else getPathLoop ref n w2' (path ++ [w2'.getReference])

/-- `walker_t::get_path`. -/
def getPath (n : Nat) (w : Walker) : Except MoveError (List Reference) :=
  getPathLoop w.getReference n (ofUnit w.compileUnit) []

/-- `move_up`: whether there is a parent. -/
def moveUp (cus : List CompileUnit) (n : Nat) (w : Walker) : Except MoveError (Bool × Walker) :=
  match getPath n w with
  | .error e => .error e
  | .ok path =>
    if path.length > 1 then moveTo cus (path.getD (path.length - 2) Reference.null) w
    else .ok (false, w)

end Walker

/-! ### Full names -/

/-- Why `get_full_name` does not return. -/
inductive FullNameError where
  | move (e : MoveError)
  /-- a null entry is looked at -/
  | nullEntry
  | outOfFuel
  deriving DecidableEq

section
variable (cus : List CompileUnit)

/-- The walker at the specification of its entry, if it has one. -/
def moveToSpecification (w : Walker) : Except FullNameError Walker :=
  match w.entry.getAttribute dwAtSpecification with
  | none   => .ok w
  | some _ =>
    match moveTo cus (w.entry.getReferenceAttribute dwAtSpecification) w with
    | .error e        => .error (.move e)
    | .ok (false, _)  => .error .nullEntry
    | .ok (true, w')  => .ok w'

/-- `full`, with a name before it. -/
def prependScope (full : List UInt8) : Option (List UInt8) → List UInt8
  | none      => full
  | some name => name ++ if full = [] then [] else CString.ascii "::" ++ full

/-- The loop of `get_full_name`, from the entry the walker is at. -/
def getFullNameLoop : Nat → Walker → List UInt8 → Except FullNameError (List UInt8)
  | 0,     _, _    => .error .outOfFuel
  | n + 1, w, full =>
    match moveToSpecification cus w with
    | .error e => .error e
    | .ok w    =>
      if w.entry.getTag = dwTagCompileUnit then .ok full
      else
        match moveUp cus n w with
        | .error e       => .error (.move e)
        | .ok (false, _) => .ok (prependScope full (w.entry.getStringAttribute dwAtName))
        | .ok (true, w') =>
          getFullNameLoop n w' (prependScope full (w.entry.getStringAttribute dwAtName))

/-- `get_full_name`. -/
def getFullName (n : Nat) (ref : Reference) : Except FullNameError (List UInt8) :=
  match ofReference cus ref with
  | none   => .error (.move .noCompileUnit)
  | some w =>
    match moveNext cus n w with
    | .error e       => .error (.move e)
    | .ok (false, _) => .error .nullEntry
    | .ok (true, w') => getFullNameLoop cus n w' []

end

/-! ### The way down to an entry -/

/-- `ds` are the entries on the way from one of a list of siblings down to an entry. -/
inductive Nodes.PathTo : Nodes → List Node → Prop where
  | here {d : Node} {children siblings : Nodes} : PathTo (.cons d children siblings) [d]
  | deeper {d : Node} {children siblings : Nodes} {ds : List Node} (h : PathTo children ds) :
      PathTo (.cons d children siblings) (d :: ds)
  | next {d : Node} {children siblings : Nodes} {ds : List Node} (h : PathTo siblings ds) :
      PathTo (.cons d children siblings) ds

/-- `path` are the entries of a unit from its root down to an entry. -/
inductive CompileUnit.PathTo (cu : CompileUnit) (path : List Node) : Prop where
  | mk {root : Node} {children : Nodes} {ds : List Node} (hoff : root.off = headerLength)
      (hroot : root.IsRead cu) (hbelow : root.Below cu children)
      (hds : ds = [] ∨ children.PathTo ds) (hpath : path = root :: ds)

section
variable {cu : CompileUnit}

/-- A way below an entry goes somewhere. -/
theorem Nodes.PathTo.ne_nil {nodes : Nodes} {ds : List Node} (h : nodes.PathTo ds) : ds ≠ [] := by
  induction h with
  | here => exact List.cons_ne_nil _ _
  | deeper h ih => exact List.cons_ne_nil _ _
  | next h ih => exact ih

/-- The entries on the way are read where they are, the later ones further on. -/
theorem Nodes.PathTo.entries {nodes : Nodes} {ds : List Node} (h : nodes.PathTo ds) {off stop : Nat}
    (hlaid : nodes.Laid cu off stop) : ∀ d ∈ ds, d.IsRead cu ∧ off ≤ d.off := by
  induction h generalizing off stop with
  | here =>
    obtain ⟨rfl, hd, -, -⟩ := hlaid
    exact List.forall_mem_singleton.mpr ⟨hd, Nat.le_refl _⟩
  | @deeper d children siblings ds h ih =>
    obtain ⟨rfl, hd, hchildren, -⟩ := hlaid
    have hlt := hd.inside.lt
    refine List.forall_mem_cons.mpr ⟨⟨hd, Nat.le_refl _⟩, fun d' hd' => ?_⟩
    by_cases hleaf : d.decl.children = 0
    · rw [if_pos hleaf] at hchildren
      obtain ⟨rfl, -⟩ := hchildren
      cases h
    · rw [if_neg hleaf] at hchildren
      obtain ⟨hread, hle⟩ := ih hchildren d' hd'
      exact ⟨hread, by omega⟩
  | @next d children siblings ds h ih =>
    obtain ⟨rfl, hd, hchildren, hsiblings⟩ := hlaid
    have hlt := hd.inside.lt
    have hle : d.next ≤ d.stop := Node.Below.le hchildren
    intro d' hd'
    obtain ⟨hread, hle'⟩ := ih hsiblings d' hd'
    exact ⟨hread, by omega⟩

/-! ### `get_path` -/

/-- The loop goes on from the walker `w'` with the vector `path'`. -/
def PathSkips (ref : Reference) (w : Walker) (path : List Reference) (w' : Walker)
    (path' : List Reference) : Prop :=
  ∃ k, ∀ n, getPathLoop ref (n + k) w path = getPathLoop ref n w' path'

/-- What is skipped in two parts is skipped. -/
theorem PathSkips.trans {ref : Reference} {w w' w'' : Walker} {path path' path'' : List Reference}
    (h : PathSkips ref w path w' path') (h' : PathSkips ref w' path' w'' path'') :
    PathSkips ref w path w'' path'' := by
  obtain ⟨k, hk⟩ := h
  obtain ⟨k', hk'⟩ := h'
  refine ⟨k' + k, fun n => ?_⟩
  rw [← Nat.add_assoc, hk, hk']

/-- A null entry closes the entry that was opened last. -/
theorem PathSkips.null {ref : Reference} {w w' : Walker} (path : List Reference)
    (h : w.readEntry = .ok (.eol, w')) : PathSkips ref w path w' path.dropLast := by
  refine ⟨1, fun n => ?_⟩
  rw [getPathLoop, h]

/-- Any other entry is opened if it has children. -/
theorem PathSkips.entry {ref : Reference} {w w' : Walker} {d : Node} {level : Nat}
    (path : List Reference) (h : w.readEntry = .ok (.ok, w')) (hat : AtNode cu w' d level)
    (hne : ref ≠ cu.makeReference d.off) :
    PathSkips ref w path w'
      (if d.decl.children = 0 then path else path ++ [cu.makeReference d.off]) := by
  refine ⟨1, fun n => ?_⟩
  rw [getPathLoop, h]
  dsimp only
  rw [hat.getReference, if_neg hne, hat.abbrev?]
  dsimp only
  by_cases hleaf : d.decl.children = 0
  · rw [if_pos hleaf, if_pos hleaf, List.dropLast_concat]
  · rw [if_neg hleaf, if_neg hleaf]

/-- References to different offsets are different. -/
theorem CompileUnit.makeReference_ne {off off' : Nat} (hoff : off < 2 ^ 32) (hoff' : off' < 2 ^ 32)
    (hne : off ≠ off') : cu.makeReference off ≠ cu.makeReference off' := by
  intro h
  have hoffset := congrArg Reference.offset h
  simp only [CompileUnit.makeReference] at hoffset
  rw [Nat.mod_eq_of_lt hoff, Nat.mod_eq_of_lt hoff'] at hoffset
  exact hne hoffset

/-- The offset of an entry has 32 bits. -/
theorem Node.IsRead.off_lt {d : Node} (hd : d.IsRead cu)
    (hsize : cu.getContents.bytes.length < 2 ^ 32) : d.off < 2 ^ 32 :=
  (hd.inside.lt.trans_le hd.inside.le).trans hsize

/-- The reference of an entry is not the one of an entry before it. -/
theorem Node.IsRead.makeReference_ne {d e : Node} (hd : d.IsRead cu)
    (hsize : cu.getContents.bytes.length < 2 ^ 32) (hlt : e.off < d.off) :
    cu.makeReference d.off ≠ cu.makeReference e.off :=
  CompileUnit.makeReference_ne (hd.off_lt hsize) (hlt.trans (hd.off_lt hsize)) hlt.ne'

/-- **Entries before the one looked for are passed**, with the null entry that closes their
parent. -/
theorem Nodes.Laid.pathSkips {ds : Nodes} {target off stop level : Nat}
    (hsize : cu.getContents.bytes.length < 2 ^ 32) (h : ds.Laid cu off stop) {w : Walker}
    (hw : Stands cu w off (level + 1)) (htarget : stop ≤ target) (hlt : target < 2 ^ 32)
    (path : List Reference) (parent : Reference) :
    ∃ w', PathSkips (cu.makeReference target) w (path ++ [parent]) w' path ∧
      Stands cu w' stop level := by
  induction ds generalizing off stop level w path parent with
  | nil =>
    obtain ⟨w', hread, hstands⟩ := hw.readNull h
    have hskip : PathSkips (cu.makeReference target) w (path ++ [parent]) w'
        (path ++ [parent]).dropLast := .null _ hread
    rw [List.dropLast_concat] at hskip
    exact ⟨w', hskip, hstands⟩
  | cons d children siblings ihc ihs =>
    obtain ⟨rfl, hd, hchildren, hsiblings⟩ := h
    obtain ⟨w₁, hread, hat⟩ := hw.readEntry hd hsize
    have hbefore := hd.inside.lt
    have hle : d.next ≤ d.stop := Node.Below.le hchildren
    have hbehind := hsiblings.lt
    have hne : cu.makeReference target ≠ cu.makeReference d.off :=
      CompileUnit.makeReference_ne hlt (by omega) (by omega)
    have hskip := PathSkips.entry (path ++ [parent]) hread hat hne
    have hstands := hat.stands
    by_cases hleaf : d.decl.children = 0
    · rw [if_pos hleaf] at hchildren hskip
      rw [if_neg (not_not.mpr hleaf), ← hchildren.2] at hstands
      obtain ⟨w₂, hskip₂, hstands₂⟩ := ihs hsiblings hstands htarget path parent
      exact ⟨w₂, hskip.trans hskip₂, hstands₂⟩
    · rw [if_neg hleaf] at hchildren hskip
      rw [if_pos hleaf] at hstands
      obtain ⟨w₂, hskip₂, hstands₂⟩ :=
        ihc hchildren hstands (by omega) (path ++ [parent]) (cu.makeReference d.off)
      obtain ⟨w₃, hskip₃, hstands₃⟩ := ihs hsiblings hstands₂ htarget path parent
      exact ⟨w₃, hskip.trans (hskip₂.trans hskip₃), hstands₃⟩

/-- The loop returns the vector `path'` with enough fuel. -/
def PathEnds (ref : Reference) (w : Walker) (path path' : List Reference) : Prop :=
  ∃ k, ∀ n, getPathLoop ref (n + k) w path = .ok path'

/-- The loop ends where it ends behind what is skipped. -/
theorem PathSkips.ends {ref : Reference} {w w' : Walker} {path path' path'' : List Reference}
    (h : PathSkips ref w path w' path') (h' : PathEnds ref w' path' path'') :
    PathEnds ref w path path'' := by
  obtain ⟨k, hk⟩ := h
  obtain ⟨k', hk'⟩ := h'
  refine ⟨k' + k, fun n => ?_⟩
  rw [← Nat.add_assoc, hk, hk']

/-- The loop ends at the entry that it is for. -/
theorem PathEnds.found {w w' : Walker} {d : Node} {level : Nat} (path : List Reference)
    (h : w.readEntry = .ok (.ok, w')) (hat : AtNode cu w' d level) :
    PathEnds (cu.makeReference d.off) w path (path ++ [cu.makeReference d.off]) := by
  refine ⟨1, fun n => ?_⟩
  rw [getPathLoop, h]
  dsimp only
  rw [hat.getReference, if_pos rfl]

/-- **The loop finds the way down** to an entry of a list of siblings. -/
theorem Nodes.PathTo.pathEnds {nodes : Nodes} {ds : List Node} (h : nodes.PathTo ds)
    (hsize : cu.getContents.bytes.length < 2 ^ 32) {off stop level : Nat}
    (hlaid : nodes.Laid cu off stop) {w : Walker} (hw : Stands cu w off (level + 1)) {d : Node}
    (hd : ds.getLast? = some d) (path : List Reference) :
    PathEnds (cu.makeReference d.off) w path
      (path ++ ds.map fun d => cu.makeReference d.off) := by
  have hentry := h.entries hlaid
  induction h generalizing off stop level w path with
  | @here e children siblings =>
    obtain ⟨rfl, he, -, -⟩ := hlaid
    obtain ⟨w₁, hread, hat⟩ := hw.readEntry he hsize
    obtain rfl : e = d := by simpa using hd
    exact PathEnds.found path hread hat
  | @deeper e children siblings ds h ih =>
    obtain ⟨rfl, he, hchildren, -⟩ := hlaid
    have hd : ds.getLast? = some d := by
      rwa [List.getLast?_cons_of_ne_nil h.ne_nil] at hd
    by_cases hleaf : e.decl.children = 0
    · rw [if_pos hleaf] at hchildren
      obtain ⟨rfl, -⟩ := hchildren
      cases h
    rw [if_neg hleaf] at hchildren
    have hall := h.entries hchildren
    obtain ⟨hread', hoff⟩ := hall d (List.mem_of_getLast? hd)
    obtain ⟨w₁, hread, hat⟩ := hw.readEntry he hsize
    have hne := hread'.makeReference_ne hsize (he.inside.lt.trans_le hoff)
    have hskip := PathSkips.entry path hread hat hne
    have hstands := hat.stands
    rw [if_neg hleaf] at hskip
    rw [if_pos hleaf] at hstands
    have hends := ih hchildren hstands hd (path ++ [cu.makeReference e.off]) hall
    rw [List.append_assoc] at hends
    exact hskip.ends hends
  | @next e children siblings ds h ih =>
    obtain ⟨rfl, he, hchildren, hsiblings⟩ := hlaid
    have hall := h.entries hsiblings
    obtain ⟨hread', hoff⟩ := hall d (List.mem_of_getLast? hd)
    obtain ⟨w₁, hread, hat⟩ := hw.readEntry he hsize
    have hle : e.next ≤ e.stop := Node.Below.le hchildren
    have hne := hread'.makeReference_ne hsize (he.inside.lt.trans_le (hle.trans hoff))
    have hskip := PathSkips.entry path hread hat hne
    have hstands := hat.stands
    by_cases hleaf : e.decl.children = 0
    · rw [if_pos hleaf] at hchildren hskip
      rw [if_neg (not_not.mpr hleaf), ← hchildren.2] at hstands
      exact hskip.ends (ih hsiblings hstands hd path hall)
    · rw [if_neg hleaf] at hchildren hskip
      rw [if_pos hleaf] at hstands
      obtain ⟨w₂, hskip₂, hstands₂⟩ :=
        hchildren.pathSkips hsize hstands hoff (hread'.off_lt hsize) path (cu.makeReference e.off)
      exact hskip.ends (hskip₂.ends (ih hsiblings hstands₂ hd path hall))

/-- The entries on the way are entries of the unit. -/
theorem CompileUnit.PathTo.isRead {path : List Node} (h : cu.PathTo path) :
    ∀ d ∈ path, d.IsRead cu := by
  obtain ⟨-, hroot, hbelow, hds, rfl⟩ := h
  refine List.forall_mem_cons.mpr ⟨hroot, fun d hd => ?_⟩
  rcases hds with rfl | hds
  · cases hd
  · rcases hbelow.cases with rfl | hlaid
    · cases hds
    · exact (hds.entries hlaid d hd).1

/-- A walker shows the offset of its entry. -/
theorem Shows.offset {w : Walker} {d : Node} {level : Nat} (hw : Shows cu w d level) :
    w.entry.offset = d.off := congrArg EntryView.offset hw.view

/-- A walker over the unit starts before the root entry. -/
def CompileUnit.Starts (cu : CompileUnit) : Prop := cu.getContents = cu.readerAt headerLength

/-- **`get_path` returns the way from the unit's root down to the walker's entry.** -/
theorem getPath_eq (hsize : cu.getContents.bytes.length < 2 ^ 32) (hstart : cu.Starts)
    {path : List Node} (hpath : cu.PathTo path) {d : Node} (hlast : path.getLast? = some d)
    {w : Walker} (hunit : w.compileUnit = cu) (hoffset : w.entry.offset = d.off) :
    ∃ k, ∀ n, getPath (n + k) w = .ok (path.map fun d => cu.makeReference d.off) := by
  have href : w.getReference = cu.makeReference d.off := by
    rw [Walker.getReference, hunit, hoffset]
  have hread := hpath.isRead d (List.mem_of_getLast? hlast)
  obtain @⟨root, children, ds, hoff, hroot, hbelow, hds, rfl⟩ := hpath
  have hstands : Stands cu (ofUnit cu) root.off 0 :=
    ⟨rfl, hoff ▸ hstart, rfl, rfl, fun _ => Nat.le_refl 0, by
      rw [show (ofUnit cu).entry.latest = 0 from rfl]
      omega⟩
  obtain ⟨w₁, hread₁, hat⟩ := hstands.readEntry hroot hsize
  have hends : PathEnds (cu.makeReference d.off) (ofUnit cu) []
      ((root :: ds).map fun d => cu.makeReference d.off) := by
    rcases hds with rfl | hds
    · obtain rfl : root = d := by simpa using hlast
      exact PathEnds.found [] hread₁ hat
    · rw [List.getLast?_cons_of_ne_nil hds.ne_nil] at hlast
      rw [Node.Below] at hbelow
      split at hbelow
      · obtain ⟨rfl, -⟩ := hbelow
        cases hds
      case isFalse hleaf =>
        obtain ⟨-, hle⟩ := hds.entries hbelow d (List.mem_of_getLast? hlast)
        have hne := hread.makeReference_ne hsize (hroot.inside.lt.trans_le hle)
        have hskip := PathSkips.entry [] hread₁ hat hne
        have hstands₁ := hat.stands
        rw [if_neg hleaf] at hskip
        rw [if_pos hleaf] at hstands₁
        exact hskip.ends (hds.pathEnds hsize hbelow hstands₁ hlast _)
  obtain ⟨k, hk⟩ := hends
  refine ⟨k, fun n => ?_⟩
  rw [getPath, href, hunit, hk]

/-! ### From an entry to its parent -/

/-- The way to the parent. -/
theorem Nodes.PathTo.dropLast {nodes : Nodes} {ds : List Node} (h : nodes.PathTo ds)
    (hne : ds.dropLast ≠ []) : nodes.PathTo ds.dropLast := by
  induction h with
  | here => exact absurd rfl hne
  | @deeper d children siblings ds h ih =>
    rw [List.dropLast_cons_of_ne_nil h.ne_nil]
    by_cases hone : ds.dropLast = []
    · rw [hone]
      exact .here
    · exact .deeper (ih hone)
  | next h ih => exact .next (ih hne)

/-- The way to the parent. -/
theorem CompileUnit.PathTo.parent {path : List Node} {d : Node} (h : cu.PathTo (path ++ [d]))
    (hne : path ≠ []) : cu.PathTo path := by
  obtain @⟨root, children, ds, hoff, hroot, hbelow, hds, hpath⟩ := h
  obtain ⟨e, path, rfl⟩ := List.exists_cons_of_ne_nil hne
  rw [List.cons_append] at hpath
  obtain ⟨rfl, rfl⟩ := List.cons.inj hpath
  refine ⟨hoff, hroot, hbelow, ?_, rfl⟩
  by_cases hnil : path = []
  · exact .inl hnil
  · rcases hds with hds | hds
    · simp at hds
    · have hdrop := hds.dropLast (by simpa using hnil)
      rw [List.dropLast_concat] at hdrop
      exact .inr hdrop

variable {cus : List CompileUnit}

/-- `move_to` an entry, from anywhere. -/
theorem moveTo_node {ref : Reference} {d : Node} {w : Walker}
    (hsize : cu.getContents.bytes.length < 2 ^ 32)
    (href : resolveReference cus ref = some (cu, d.off)) (hd : d.IsRead cu)
    (hfilter : w.filterTag = 0) (hbounded : w.entry.Bounded)
    (hlatest : w.entry.latest + 1 < 2 ^ 32) :
    ∃ w', moveTo cus ref w = .ok (true, w') ∧ Shows cu w' d 0 ∧
      w'.entry.latest = w.entry.latest + 1 := by
  have hseek : w.seek cus ref =
      some { w with compileUnit := cu, reader := cu.readerAt d.off, level := 0 } := by
    rw [Walker.seek, href]
    rfl
  obtain ⟨w', hread, hshows, hnext⟩ :=
    readEntry_node (w := { w with compileUnit := cu, reader := cu.readerAt d.off, level := 0 })
      rfl rfl hfilter hbounded hlatest hd hsize
  refine ⟨w', ?_, hshows, hnext⟩
  rw [moveTo, hseek]
  dsimp only
  rw [hread]

/-- At a root `move_up` returns 0. -/
theorem moveUp_root (hcu : cu.Known cus) (hstart : cu.Starts) {d : Node} (hpath : cu.PathTo [d])
    {w : Walker} {level : Nat} (hw : Shows cu w d level) :
    ∃ k, ∀ n, moveUp cus (n + k) w = .ok (false, w) := by
  obtain ⟨k, hk⟩ := getPath_eq hcu.size_lt hstart hpath rfl hw.compileUnit hw.offset
  refine ⟨k, fun n => ?_⟩
  rw [moveUp, hk]
  rfl

/-- Below a root `move_up` reads the parent. -/
theorem moveUp_parent (hcu : cu.Known cus) (hstart : cu.Starts) {path : List Node} {d parent : Node}
    (hpath : cu.PathTo (path ++ [d])) (hparent : path.getLast? = some parent)
    {w : Walker} {level : Nat} (hw : Shows cu w d level) (hlatest : w.entry.latest + 1 < 2 ^ 32) :
    ∃ k w', (∀ n, moveUp cus (n + k) w = .ok (true, w')) ∧ Shows cu w' parent 0 ∧
      w'.entry.latest = w.entry.latest + 1 := by
  obtain ⟨k, hk⟩ :=
    getPath_eq hcu.size_lt hstart hpath List.getLast?_concat hw.compileUnit hw.offset
  obtain ⟨pre, rfl⟩ := List.getLast?_eq_some_iff.mp hparent
  have hread := hpath.isRead parent (by simp)
  have href := hcu.resolve (hcu.off_lt hread)
  obtain ⟨w', hmove, hshows, hnext⟩ :=
    moveTo_node hcu.size_lt href hread hw.filterTag hw.bounded hlatest
  refine ⟨k, w', fun n => ?_, hshows, hnext⟩
  rw [moveUp, hk]
  dsimp only
  rw [if_pos (by simp)]
  have hget : ((pre ++ [parent] ++ [d]).map fun d => cu.makeReference d.off).getD
      (((pre ++ [parent] ++ [d]).map fun d => cu.makeReference d.off).length - 2)
      Reference.null = cu.makeReference parent.off := by
    simp
  rw [hget, hmove]

/-! ### Chains -/

variable (cus) in
/-- From the entry at the end of a way to its specification, if it has one. -/
inductive Follows : CompileUnit → List Node → CompileUnit → List Node → Prop where
  | self {cu : CompileUnit} {path : List Node} {d : Node} (hlast : path.getLast? = some d)
      (hno : d.attribute dwAtSpecification = none) : Follows cu path cu path
  | specification {cu cu' : CompileUnit} {path path' : List Node} {d d' : Node} {ref : Reference}
      (hlast : path.getLast? = some d)
      (hspec : d.attribute dwAtSpecification = some (.ref ref))
      (href : resolveReference cus ref = some (cu', d'.off)) (hmem : cu' ∈ cus)
      (hpath : cu'.PathTo path') (hlast' : path'.getLast? = some d') : Follows cu path cu' path'

variable (cus) in
/-- `ds` are the entries that follow from the one at the end of a way, by going to the
specification and then to the parent, up to a root or before a `DW_TAG_compile_unit`. -/
inductive Chain : CompileUnit → List Node → List Node → Prop where
  | unit {cu cu' : CompileUnit} {path path' : List Node} {d : Node}
      (hfollows : Follows cus cu path cu' path') (hlast : path'.getLast? = some d)
      (htag : d.decl.tag = dwTagCompileUnit) : Chain cu path []
  | root {cu cu' : CompileUnit} {path : List Node} {d : Node}
      (hfollows : Follows cus cu path cu' [d]) (htag : d.decl.tag ≠ dwTagCompileUnit) :
      Chain cu path [d]
  | up {cu cu' : CompileUnit} {path path' ds : List Node} {d : Node}
      (hfollows : Follows cus cu path cu' (path' ++ [d])) (htag : d.decl.tag ≠ dwTagCompileUnit)
      (hne : path' ≠ []) (h : Chain cu' path' ds) : Chain cu path (d :: ds)

/-- A unit of the list whose entries can be reached. -/
structure CompileUnit.Ready (cus : List CompileUnit) (cu : CompileUnit) : Prop where
  known : cu.Known cus
  starts : cu.Starts

/-- The name of an entry. -/
def Node.scope (d : Node) : Option (List UInt8) := stringOf (d.attribute dwAtName)

/-- A walker shows the attributes of its entry. -/
theorem Shows.getAttribute {w : Walker} {d : Node} {level : Nat} (hw : Shows cu w d level)
    (name : Nat) : w.entry.getAttribute name = d.attribute name :=
  congrArg (fun v => v.getAttribute name) hw.view

/-- A walker shows the tag of its entry. -/
theorem Shows.getTag {w : Walker} {d : Node} {level : Nat} (hw : Shows cu w d level) :
    w.entry.getTag = d.decl.tag := congrArg EntryView.tag hw.view

/-- A walker shows the name of its entry. -/
theorem Shows.scope {w : Walker} {d : Node} {level : Nat} (hw : Shows cu w d level) :
    w.entry.getStringAttribute dwAtName = d.scope := by
  rw [Entry.getStringAttribute, hw.getAttribute]
  rfl

/-- Going to the specification takes one move at most. -/
theorem Follows.moves (hunits : ∀ cu ∈ cus, ∀ path, cu.PathTo path → cu.Ready cus)
    {cu cu' : CompileUnit} {path path' : List Node} (h : Follows cus cu path cu' path')
    (hmem : cu ∈ cus) (hpath : cu.PathTo path) {d : Node} (hlast : path.getLast? = some d)
    {w : Walker} {level : Nat} (hw : Shows cu w d level) (hlatest : w.entry.latest + 1 < 2 ^ 32) :
    cu' ∈ cus ∧ cu'.PathTo path' ∧ ∃ d' w' level', path'.getLast? = some d' ∧
      moveToSpecification cus w = .ok w' ∧ Shows cu' w' d' level' ∧
      w'.entry.latest ≤ w.entry.latest + 1 := by
  cases h with
  | self hlast' hno =>
    obtain rfl := Option.some.inj (hlast.symm.trans hlast')
    refine ⟨hmem, hpath, d, w, level, hlast, ?_, hw, Nat.le_succ _⟩
    rw [moveToSpecification, hw.getAttribute, hno]
  | @specification _ _ _ _ d' ref hlast' hspec href hmem' hpath' hend =>
    obtain rfl := Option.some.inj (hlast.symm.trans hlast')
    have hready := hunits cu' hmem' path' hpath'
    have hread := hpath'.isRead d' (List.mem_of_getLast? hend)
    obtain ⟨w', hmove, hshows, hnext⟩ :=
      moveTo_node hready.known.size_lt href hread hw.filterTag hw.bounded hlatest
    refine ⟨hmem', hpath', d', w', 0, hend, ?_, hshows, hnext.le⟩
    rw [moveToSpecification, Entry.getReferenceAttribute, hw.getAttribute, hspec]
    dsimp only
    rw [hmove]

/-- **The loop goes along the chain.** -/
theorem Chain.getFullNameLoop (hunits : ∀ cu ∈ cus, ∀ path, cu.PathTo path → cu.Ready cus)
    {cu : CompileUnit} {path ds : List Node} (h : Chain cus cu path ds) (hmem : cu ∈ cus)
    (hpath : cu.PathTo path) {d : Node} (hlast : path.getLast? = some d) {w : Walker} {level : Nat}
    (hw : Shows cu w d level) (hlatest : w.entry.latest + 2 * ds.length + 1 < 2 ^ 32)
    (full : List UInt8) :
    ∃ k, ∀ n, getFullNameLoop cus (n + k) w full =
      .ok (ds.foldl (fun full d => prependScope full d.scope) full) := by
  induction h generalizing d w level full with
  | unit hfollows hend htag =>
    obtain ⟨-, -, e, w', level', hend', hmove, hshows, -⟩ :=
      hfollows.moves hunits hmem hpath hlast hw (by omega)
    obtain rfl := Option.some.inj (hend.symm.trans hend')
    refine ⟨1, fun n => ?_⟩
    rw [Dwarf.getFullNameLoop, hmove]
    dsimp only
    rw [hshows.getTag, if_pos htag]
    rfl
  | @root cu cu' path e hfollows htag =>
    obtain ⟨hmem', hpath', e', w', level', hend', hmove, hshows, -⟩ :=
      hfollows.moves hunits hmem hpath hlast hw (by omega)
    obtain rfl : e = e' := by simpa using hend'
    have hready := hunits cu' hmem' _ hpath'
    obtain ⟨k, hk⟩ := moveUp_root hready.known hready.starts hpath' hshows
    refine ⟨k + 1, fun n => ?_⟩
    rw [← Nat.add_assoc, Dwarf.getFullNameLoop, hmove]
    dsimp only
    rw [hshows.getTag, if_neg htag, hk, hshows.scope]
    rfl
  | @up cu cu' path path' ds e hfollows htag hne h ih =>
    simp only [List.length_cons] at hlatest
    obtain ⟨hmem', hpath', e', w', level', hend', hmove, hshows, hle⟩ :=
      hfollows.moves hunits hmem hpath hlast hw (by omega)
    obtain rfl : e = e' := by simpa using hend'
    have hready := hunits cu' hmem' _ hpath'
    obtain ⟨parent, hparent⟩ := Option.ne_none_iff_exists'.mp (mt List.getLast?_eq_none_iff.mp hne)
    obtain ⟨k, w'', hk, hshows', hnext⟩ :=
      moveUp_parent hready.known hready.starts hpath' hparent hshows (by omega)
    obtain ⟨k', hk'⟩ := ih hmem' (hpath'.parent hne) hparent hshows' (by omega)
      (prependScope full e.scope)
    refine ⟨k' + k + 1, fun n => ?_⟩
    rw [← Nat.add_assoc, Dwarf.getFullNameLoop, hmove]
    dsimp only
    rw [hshows.getTag, if_neg htag, ← Nat.add_assoc, hk, hshows.scope]
    dsimp only
    rw [show n + k' + k = n + k + k' by omega, hk', List.foldl_cons]

/-! ### Names -/

/-- The names of the entries of a chain, innermost first. -/
def scopes (ds : List Node) : List (List UInt8) := ds.filterMap Node.scope

/-- Names as they are joined, outermost first. -/
def joinedScopes (names : List (List UInt8)) : List UInt8 :=
  (CString.ascii "::").intercalate names.reverse

/-- An entry without a name is passed over. -/
theorem scopes_cons_none {d : Node} (h : d.scope = none) (ds : List Node) :
    scopes (d :: ds) = scopes ds := List.filterMap_cons_none h

/-- An entry with a name is a scope. -/
theorem scopes_cons_some {d : Node} {name : List UInt8} (h : d.scope = some name)
    (ds : List Node) : scopes (d :: ds) = name :: scopes ds := List.filterMap_cons_some h

theorem prependScope_none (full : List UInt8) : prependScope full none = full := rfl

/-- The innermost name stands alone. -/
theorem prependScope_nil (name : List UInt8) : prependScope [] (some name) = name := by
  simp [prependScope]

/-- A scope is put before the others. -/
theorem joinedScopes_concat {names : List (List UInt8)} (hne : names ≠ []) (name : List UInt8) :
    joinedScopes (names ++ [name]) = name ++ (CString.ascii "::" ++ joinedScopes names) := by
  obtain ⟨names, last, rfl⟩ := List.eq_nil_or_concat names |>.resolve_left hne
  simp [joinedScopes]

/-- Once there is text every name is joined to it. -/
theorem foldl_prependScope (ds : List Node) {names : List (List UInt8)}
    (hne : joinedScopes names ≠ []) :
    ds.foldl (fun full d => prependScope full d.scope) (joinedScopes names) =
      joinedScopes (names ++ scopes ds) := by
  induction ds generalizing names with
  | nil => simp [scopes]
  | cons d ds ih =>
    cases hscope : d.scope with
    | none => rw [List.foldl_cons, hscope, prependScope_none, ih hne, scopes_cons_none hscope]
    | some name =>
      have hnames : names ≠ [] := by
        rintro rfl
        exact hne rfl
      have hjoin := joinedScopes_concat hnames name
      have hsep : CString.ascii "::" ≠ [] := by decide
      have hnext : joinedScopes (names ++ [name]) ≠ [] := by
        simp [hjoin, hsep]
      have hstep : prependScope (joinedScopes names) (some name) =
          joinedScopes (names ++ [name]) := by
        rw [prependScope, if_neg hne, hjoin]
      rw [List.foldl_cons, hscope, hstep, ih hnext, scopes_cons_some hscope, List.append_assoc]
      rfl

/-- **The names of a chain as they are joined**: all of them but the empty ones inside the first
that is not. -/
theorem foldl_prependScope_nil (ds : List Node) :
    ds.foldl (fun full d => prependScope full d.scope) [] =
      joinedScopes ((scopes ds).dropWhile (· = [])) := by
  induction ds with
  | nil => rfl
  | cons d ds ih =>
    cases hscope : d.scope with
    | none => rw [List.foldl_cons, hscope, prependScope_none, ih, scopes_cons_none hscope]
    | some name =>
      rw [List.foldl_cons, hscope, prependScope_nil, scopes_cons_some hscope]
      by_cases hname : name = []
      · rw [hname, ih, List.dropWhile_cons_of_pos (by simp)]
      · have hone : joinedScopes [name] = name := by simp [joinedScopes]
        have hne : joinedScopes [name] ≠ [] := by rwa [hone]
        have hfold := foldl_prependScope ds hne
        rw [hone] at hfold
        rw [hfold, List.dropWhile_cons_of_neg (by simpa using hname)]
        rfl

end

/-! ### The units of a state -/

section
variable {fuel : Nat} {p : Platform} {calls : List AddCall} {s : LoadState}

/-- The reader of a unit that was read begins with its header. -/
theorem starts_of_root (hs : LoadState.addAll fuel p {} calls = .ok s) {cu : CompileUnit}
    (hcu : cu ∈ s.getCompileUnits) {d : Node} (hoff : d.off = headerLength) (hd : d.IsRead cu) :
    cu.Starts := by
  obtain ⟨loaded, hloaded, rfl⟩ := List.mem_map.mp hcu
  obtain ⟨cu₀, cu₁, r, r', hheader, hreader, -⟩ :=
    (unitsRead_nil.addAll hs).header loaded hloaded
  obtain ⟨length, is64, r₁, -, -, -, hr, -⟩ := readHeader_some hheader
  have hbase : loaded.unit.reader.p = loaded.unit.reader.base := by
    rw [hreader, hr]
    rfl
  have hlt := hd.inside.lt
  have hle := hd.inside.le
  have hlen : headerLength ≤ loaded.unit.getContents.bytes.length := by omega
  rw [CompileUnit.Starts, CompileUnit.readerAt, Reader.seek_eq _ hlen]
  rw [CompileUnit.getContents, Read.skip] at hlen ⊢
  split
  case isTrue hend =>
    rw [if_pos hend] at hlen
    dsimp only at hlen
    have hfits := loaded.unit.reader.fits
    rw [hbase, Nat.mod_eq_of_lt (by omega), Reader.end_] at hend
    omega
  · rw [hbase]
    rfl

/-- The units of a loaded state are ready to be walked. -/
theorem ready_of_pathTo (hs : LoadState.addAll fuel p {} calls = .ok s)
    (hmem : ∀ cu ∈ s.getCompileUnits, (cu.linkObject.getSection .info).InUserSpace) :
    ∀ cu ∈ s.getCompileUnits, ∀ path, cu.PathTo path → cu.Ready s.getCompileUnits := by
  rintro cu hcu path ⟨hoff, hroot, -, -, -⟩
  exact ⟨known_of_root hs hcu (hmem cu hcu) hoff hroot, starts_of_root hs hcu hoff hroot⟩

/-- What `get_full_name` returns for the entry at the end of a way. -/
theorem getFullName_eq (hs : LoadState.addAll fuel p {} calls = .ok s)
    (hmem : ∀ cu ∈ s.getCompileUnits, (cu.linkObject.getSection .info).InUserSpace)
    {cu : CompileUnit} (hcu : cu ∈ s.getCompileUnits) {path : List Node} (hpath : cu.PathTo path)
    {d : Node} (hlast : path.getLast? = some d) {ds : List Node}
    (hchain : Chain s.getCompileUnits cu path ds) (hlen : ds.length + 1 < 2 ^ 31)
    {ref : Reference} (href : resolveReference s.getCompileUnits ref = some (cu, d.off)) :
    ∃ n₀, ∀ n ≥ n₀, getFullName s.getCompileUnits n ref =
      .ok (joinedScopes ((scopes ds).dropWhile (· = []))) := by
  have hunits := ready_of_pathTo hs hmem
  have hready := hunits cu hcu path hpath
  have hread := hpath.isRead d (List.mem_of_getLast? hlast)
  obtain ⟨w, w', hw, hnext, hshows, hlatest⟩ := moveNext_first hready.known.size_lt href hread
  obtain ⟨k, hk⟩ := hchain.getFullNameLoop hunits hcu hpath hlast hshows (by omega) []
  refine ⟨k + 1, fun n hn => ?_⟩
  obtain ⟨m, rfl⟩ := Nat.exists_eq_add_of_le' hn
  have hloop := hk (m + 1)
  rw [foldl_prependScope_nil, Nat.add_right_comm] at hloop
  rw [getFullName, hw]
  dsimp only
  rw [← Nat.add_assoc, hnext]
  exact hloop

/-- **`get_full_name` joins the names along the chain** of an entry, whatever units the
specifications lead to, without the empty names inside the first that is not empty; **`get_path`
returns the way from the unit's root down to the walker's entry**.  The entries a walker reads are
counted with 32 bits. -/
theorem getFullName_joins (hs : LoadState.addAll fuel p {} calls = .ok s)
    (hmem : ∀ cu ∈ s.getCompileUnits, (cu.linkObject.getSection .info).InUserSpace)
    {cu : CompileUnit} (hcu : cu ∈ s.getCompileUnits) {path : List Node} (hpath : cu.PathTo path)
    {d : Node} (hlast : path.getLast? = some d) :
    (∀ ds, Chain s.getCompileUnits cu path ds → ds.length + 1 < 2 ^ 31 →
      ∀ ref, resolveReference s.getCompileUnits ref = some (cu, d.off) →
        ∃ n₀, ∀ n ≥ n₀, getFullName s.getCompileUnits n ref =
          .ok (joinedScopes ((scopes ds).dropWhile (· = [])))) ∧
    ∀ w : Walker, w.compileUnit = cu → w.entry.offset = d.off →
      ∃ n₀, ∀ n ≥ n₀, getPath n w = .ok (path.map fun d => cu.makeReference d.off) := by
  constructor
  · intro ds hchain hlen ref href
    exact getFullName_eq hs hmem hcu hpath hlast hchain hlen href
  · intro w hunit hoffset
    have hready := ready_of_pathTo hs hmem cu hcu path hpath
    obtain ⟨k, hk⟩ := getPath_eq hready.known.size_lt hready.starts hpath hlast hunit hoffset
    refine ⟨k, fun n hn => ?_⟩
    obtain ⟨m, rfl⟩ := Nat.exists_eq_add_of_le' hn
    exact hk m

end

/-! ### A unit with a namespace -/

/-- A unit and a namespace with children, variables with a name and with a specification, and
types. -/
def scopeAbbrevs : List AbbrevDecl :=
  [{ code := .byte 1, tag := .byte 0x11, children := true, specs := [] },
    { code := .byte 2, tag := .byte 0x39, children := true, specs := [(.byte 0x03, .byte 0x08)] },
    { code := .byte 3, tag := .byte 0x34, children := false, specs := [(.byte 0x03, .byte 0x08)] },
    { code := .byte 4, tag := .byte 0x34, children := false, specs := [(.byte 0x47, .byte 0x13)] },
    { code := .byte 5, tag := .byte 0x24, children := false, specs := [(.byte 0x0b, .byte 0x0b)] },
    { code := .byte 6, tag := .byte 0x01, children := true, specs := [(.byte 0x49, .byte 0x13)] },
    { code := .byte 7, tag := .byte 0x21, children := false, specs := [(.byte 0x37, .byte 0x0b)] },
    { code := .byte 8, tag := .byte 0x21, children := false, specs := [(.byte 0x2f, .byte 0x0b)] }]

/-- A variable in a scope. -/
def variableDie (name : String) : Die :=
  { code := .byte 3, operands := [.string (CString.ascii name)] }

/-- A namespace with a variable that has an empty name and one that has another, a variable
specified by that one, a type, and two arrays of it. -/
def scopeTree : Tree where
  root := unitDie
  children :=
    .cons { code := .byte 2, operands := [.string (CString.ascii "A")] }
      (.cons (variableDie "") .nil (.cons (variableDie "v") .nil .nil))
      (.cons { code := .byte 4, operands := [.ref4 17] } .nil
        (.cons { code := .byte 5, operands := [.data1 4] } .nil
          (.cons { code := .byte 6, operands := [.ref4 26] }
            (.cons { code := .byte 7, operands := [.data1 3] } .nil .nil)
            (.cons { code := .byte 6, operands := [.ref4 26] }
              (.cons { code := .byte 8, operands := [.data1 2] } .nil .nil) .nil))))

theorem length_scopeTree : (scopeTree.body .four scopeAbbrevs).length + 7 < 0xfffffff0 := by
  decide

/-- Their unit in version 4. -/
def scopeUnit : Unit32 :=
  .ofBody .four (scopeTree.body .four scopeAbbrevs) Format.four_is64 length_scopeTree

theorem length_scopeUnit : 4096 + scopeUnit.encode.length < 2 ^ 63 := by decide
theorem length_scopeAbbrevs : 8192 + (encodeTable scopeAbbrevs).length < 2 ^ 63 := by decide

/-- Every file is the object with this unit. -/
def scopePlatform : Platform where
  selfExe := CString.ascii "/t"
  mapSections _ _ name :=
    if name = .info then ⟨4096, scopeUnit.encode, length_scopeUnit⟩
    else if name = .abbrevs then ⟨8192, encodeTable scopeAbbrevs, length_scopeAbbrevs⟩
    else if name = .line then ⟨12288, noLines.encode, length_oneLines⟩
    else .empty

/-- The unit as it is loaded. -/
def IsScopeUnit (cu : CompileUnit) : Prop :=
  cu.version = 4 ∧ cu.reader.bytes = scopeUnit.encode ∧ cu.reader.is64 = false ∧
    cu.abbrevs = none :: scopeAbbrevs.map (fun d => some d.toAbbrev) ∧
    (cu.linkObject.getSection .info).map + (cu.linkObject.getSection .info).bytes.length < 2 ^ 56

instance (cu : CompileUnit) : Decidable (IsScopeUnit cu) :=
  inferInstanceAs (Decidable (_ ∧ _ ∧ _ ∧ _ ∧ _))

/-- The unit is loaded. -/
theorem addAll_scope : ∃ s cu, LoadState.addAll 60 scopePlatform {} nestedCalls = .ok s ∧
    s.getCompileUnits = [cu] ∧ IsScopeUnit cu := by
  have hrun : (LoadState.addAll 60 scopePlatform {} nestedCalls).toOption.any (fun s =>
      decide (s.getCompileUnits.length = 1 ∧ ∀ cu ∈ s.getCompileUnits, IsScopeUnit cu)) =
      true := by decide +kernel
  obtain ⟨s, hs, hunits⟩ := exists_of_toOption_any hrun
  obtain ⟨hlen, hall⟩ := of_decide_eq_true hunits
  obtain ⟨cu, hcu⟩ := List.length_eq_one_iff.mp hlen
  exact ⟨s, cu, hs, hcu, hall cu (by rw [hcu]; exact List.mem_singleton_self cu)⟩

/-- The state it is loaded into, as the results about states take it. -/
theorem loaded_scope : ∃ s cu, LoadState.addAll 60 scopePlatform {} nestedCalls = .ok s ∧
    s.getCompileUnits = [cu] ∧ IsScopeUnit cu ∧ cu ∈ s.getCompileUnits ∧
    ∀ cu ∈ s.getCompileUnits, (cu.linkObject.getSection .info).InUserSpace := by
  obtain ⟨s, cu, hs, hunits, hcu⟩ := addAll_scope
  refine ⟨s, cu, hs, hunits, hcu, ?_⟩
  rw [hunits, List.forall_mem_singleton]
  exact ⟨List.mem_singleton_self cu, hcu.2.2.2.2⟩

theorem scopeAbbrevs_valid : ∀ d ∈ scopeAbbrevs, d.Valid := by
  intro d hd
  simp only [scopeAbbrevs, List.mem_cons, List.not_mem_nil, or_false] at hd
  rcases hd with rfl | rfl | rfl | rfl | rfl | rfl | rfl | rfl
  all_goals exact ⟨by decide, by decide, by decide, by decide, by decide⟩

theorem scopeAbbrevs_code : ∀ i d, scopeAbbrevs[i]? = some d → d.code.toNat = i + 1 := by
  rintro (_ | _ | _ | _ | _ | _ | _ | _ | i) d hd
  all_goals cases hd
  all_goals rfl

/-- The tree can be written. -/
theorem scopeTree_valid (lo : LinkObject) : scopeTree.Valid .four lo scopeAbbrevs where
  root := ⟨_, rfl, rfl, fun _ hop => absurd hop List.not_mem_nil⟩
  hasChildren := by decide
  children := by
    have hname : ∀ name : String, 0 ∉ CString.ascii name →
        ∃ a, (variableDie name).Valid .four lo scopeAbbrevs a := by
      intro name hname
      exact ⟨_, rfl, rfl, List.forall_mem_singleton.mpr ⟨hname, trivial⟩⟩
    have hscope : (0 : UInt8) ∉ CString.ascii "A" := by decide
    have hnumber : True ∧ True := ⟨trivial, trivial⟩
    refine ⟨⟨_, rfl, rfl, List.forall_mem_singleton.mpr ⟨hscope, trivial⟩⟩,
      fun hno => absurd hno (by decide),
      ⟨hname "" (by decide), fun _ => rfl, trivial, hname "v" (by decide), fun _ => rfl, trivial,
        trivial⟩, ?_⟩
    refine ⟨⟨_, rfl, rfl, List.forall_mem_singleton.mpr hnumber⟩, fun _ => rfl, trivial,
      ⟨_, rfl, rfl, List.forall_mem_singleton.mpr hnumber⟩, fun _ => rfl, trivial, ?_⟩
    refine ⟨⟨_, rfl, rfl, List.forall_mem_singleton.mpr hnumber⟩,
      fun hno => absurd hno (by decide),
      ⟨⟨_, rfl, rfl, List.forall_mem_singleton.mpr hnumber⟩, fun _ => rfl, trivial,
        trivial⟩, ?_⟩
    exact ⟨⟨_, rfl, rfl, List.forall_mem_singleton.mpr hnumber⟩,
      fun hno => absurd hno (by decide),
      ⟨⟨_, rfl, rfl, List.forall_mem_singleton.mpr hnumber⟩, fun _ => rfl, trivial,
        trivial⟩, trivial⟩

/-- The root entry, and the entries below it. -/
def scopeRoot (cu : CompileUnit) : Node := unitDie.node .four scopeAbbrevs cu 11 scopeTree.children

/-- The entries below its root. -/
def scopeNodes (cu : CompileUnit) : Nodes := scopeTree.children.nodes .four scopeAbbrevs cu 12

/-- The root and the entries below it are read. -/
theorem scope_below {cu : CompileUnit} (h : IsScopeUnit cu) :
    (scopeRoot cu).IsRead cu ∧ (scopeRoot cu).Below cu (scopeNodes cu) := by
  obtain ⟨hversion, hbytes, h64, habbrevs, -⟩ := h
  have hholds := CompileUnit.holds_numbered scopeAbbrevs_code scopeAbbrevs_valid hversion h64
    habbrevs
  have hcontents : cu.getContents.bytes = scopeUnit.encode := cu.getContents_frame.1.trans hbytes
  have hat : cu.HasAt headerLength (scopeTree.body .four scopeAbbrevs ++ []) := by
    constructor
    · rw [hcontents]
      decide
    · rw [hcontents]
      decide
  exact Tree.root_below hholds (scopeTree_valid cu.linkObject) hat

/-- There are ways to the entries of the unit. -/
theorem scope_pathTo {cu : CompileUnit} (h : IsScopeUnit cu) {ds : List Node}
    (hds : ds = [] ∨ (scopeNodes cu).PathTo ds) : cu.PathTo (scopeRoot cu :: ds) :=
  ⟨rfl, (scope_below h).1, (scope_below h).2, hds, rfl⟩

/-- The namespace, its two variables and the one that is specified. -/
def scopeA (cu : CompileUnit) : Node :=
  Die.node .four scopeAbbrevs cu { code := .byte 2, operands := [.string (CString.ascii "A")] } 12
    (.cons (variableDie "") .nil (.cons (variableDie "v") .nil .nil))

/-- A variable whose name is empty. -/
def scopeEmpty (cu : CompileUnit) : Node :=
  Die.node .four scopeAbbrevs cu (variableDie "") 15 .nil

/-- The variable `v`. -/
def scopeV (cu : CompileUnit) : Node :=
  Die.node .four scopeAbbrevs cu (variableDie "v") 17 .nil

/-- A variable without a name, and a reference to `v` for its specification. -/
def scopeSpecified (cu : CompileUnit) : Node :=
  Die.node .four scopeAbbrevs cu { code := .byte 4, operands := [.ref4 17] } 21 .nil

/-- From the namespace the chain ends before the unit. -/
theorem chain_scopeA (cus : List CompileUnit) (cu : CompileUnit) :
    Chain cus cu [scopeRoot cu, scopeA cu] [scopeA cu] := by
  have hunit : Chain cus cu [scopeRoot cu] [] := .unit (.self rfl rfl) rfl rfl
  have hfollows : Follows cus cu [scopeRoot cu, scopeA cu] cu ([scopeRoot cu] ++ [scopeA cu]) :=
    .self rfl rfl
  have htag : (0x39 : Nat) ≠ 0x11 := by decide
  exact .up hfollows htag (List.cons_ne_nil _ _) hunit

/-- The chain of a variable in the namespace. -/
theorem chain_variable (cus : List CompileUnit) (cu : CompileUnit) {d : Node} {path : List Node}
    (hfollows : Follows cus cu path cu [scopeRoot cu, scopeA cu, d])
    (htag : d.decl.tag ≠ dwTagCompileUnit) : Chain cus cu path [d, scopeA cu] := by
  have hfollows : Follows cus cu path cu ([scopeRoot cu, scopeA cu] ++ [d]) := hfollows
  exact .up hfollows htag (List.cons_ne_nil _ _) (chain_scopeA cus cu)

/-- A variable that is specified in the namespace. -/
theorem getFullName_joins_specified :
    ∃ s cu n₀, LoadState.addAll 60 scopePlatform {} nestedCalls = .ok s ∧
      s.getCompileUnits = [cu] ∧
      ∀ n ≥ n₀, getFullName s.getCompileUnits n (cu.makeReference 21) =
        .ok (CString.ascii "A::v") := by
  obtain ⟨s, cu, hs, hunits, hcu, hin, hmem⟩ := loaded_scope
  have hpath : cu.PathTo [scopeRoot cu, scopeSpecified cu] :=
    scope_pathTo hcu (.inr (.next .here))
  have hpathV : cu.PathTo [scopeRoot cu, scopeA cu, scopeV cu] :=
    scope_pathTo hcu (.inr (.deeper (.next .here)))
  have hready := ready_of_pathTo hs hmem cu hin _ hpath
  have href : resolveReference s.getCompileUnits (cu.makeReference 17) =
      some (cu, (scopeV cu).off) := hready.known.resolve (show 17 < 2 ^ 32 by decide)
  have hfollows : Follows s.getCompileUnits cu [scopeRoot cu, scopeSpecified cu] cu
      [scopeRoot cu, scopeA cu, scopeV cu] :=
    .specification rfl rfl href hin hpathV rfl
  have htag : (0x34 : Nat) ≠ 0x11 := by decide
  have hchain := chain_variable s.getCompileUnits cu hfollows htag
  have hlen : 2 + 1 < 2 ^ 31 := by decide
  obtain ⟨n₀, hname⟩ := (getFullName_joins hs hmem hin hpath rfl).1 _ hchain hlen
    (cu.makeReference 21) (hready.known.resolve (show 21 < 2 ^ 32 by decide))
  exact ⟨s, cu, n₀, hs, hunits, hname⟩

/-- The variable with an empty name: there is no `"::"` behind the namespace. -/
theorem getFullName_empty_name :
    ∃ s cu ds n₀, LoadState.addAll 60 scopePlatform {} nestedCalls = .ok s ∧
      s.getCompileUnits = [cu] ∧ cu.PathTo [scopeRoot cu, scopeA cu, scopeEmpty cu] ∧
      Chain s.getCompileUnits cu [scopeRoot cu, scopeA cu, scopeEmpty cu] ds ∧
      joinedScopes (scopes ds) = CString.ascii "A::" ∧
      (∀ n ≥ n₀, getFullName s.getCompileUnits n (cu.makeReference (scopeEmpty cu).off) =
        .ok (CString.ascii "A")) ∧
      ¬ ∃ n₁, ∀ n ≥ n₁, getFullName s.getCompileUnits n (cu.makeReference (scopeEmpty cu).off) =
        .ok (joinedScopes (scopes ds)) := by
  obtain ⟨s, cu, hs, hunits, hcu, hin, hmem⟩ := loaded_scope
  have hpath : cu.PathTo [scopeRoot cu, scopeA cu, scopeEmpty cu] :=
    scope_pathTo hcu (.inr (.deeper .here))
  have hready := ready_of_pathTo hs hmem cu hin _ hpath
  have hfollows : Follows s.getCompileUnits cu [scopeRoot cu, scopeA cu, scopeEmpty cu] cu
      [scopeRoot cu, scopeA cu, scopeEmpty cu] := .self rfl rfl
  have htag : (0x34 : Nat) ≠ 0x11 := by decide
  have hchain := chain_variable s.getCompileUnits cu hfollows htag
  have hlen : 2 + 1 < 2 ^ 31 := by decide
  obtain ⟨n₀, hname⟩ := getFullName_eq hs hmem hin hpath rfl hchain hlen
    (hready.known.resolve (show 15 < 2 ^ 32 by decide))
  refine ⟨s, cu, _, n₀, hs, hunits, hpath, hchain, rfl, hname, ?_⟩
  rintro ⟨n₁, hjoined⟩
  have hsame := (hname _ (Nat.le_max_left n₀ n₁)).symm.trans (hjoined _ (Nat.le_max_right n₀ n₁))
  have hne : CString.ascii "A" ≠ CString.ascii "A::" := by decide
  exact hne (Except.ok.inj hsame)

end NovaProva.Dwarf
