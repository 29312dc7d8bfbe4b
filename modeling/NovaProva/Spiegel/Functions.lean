import NovaProva.Dwarf.Layout
import NovaProva.Spiegel.LinkObjects
import NovaProva.Core.Types

/-!
# Spiegel — Functions

`compile_unit_t::get_functions`, with the factory that makes each function once, and the loop of
`testmanager_t::discover_functions` over the functions of all units.

The scan goes over the children of the root entry by `move_next`, which is as good as going over
the list of them (`scanFunctions_children`), and the factory, which reads each entry again with a
walker of its own, makes of it what the scan has seen (`makeFunction_at`).
-/

namespace NovaProva.Dwarf

open Walker

/-- `DW_AT_declaration`. -/
def dwAtDeclaration : Nat := 0x3c

/-! ### Making functions -/

/-- `function_t`; a null name is made an empty one. -/
structure Function where
  ref : Reference
  name : List UInt8
  lowPc : Nat
  isDeclaration : Bool
  deriving DecidableEq

/-- `get_address`. -/
def Function.getAddress (fn : Function) : Nat := fn.lowPc

/-- `_factory_t`; of its cache only the functions, which have references that types do not have. -/
structure Factory where
  cache : Reference → Option Function := fun _ => none

namespace Factory

/-- `_factory_t::find`. -/
def find (factory : Factory) (ref : Reference) : Option Function := factory.cache ref

/-- `_factory_t::add`. -/
def add (factory : Factory) (fn : Function) : Factory where
  cache := fun ref => if ref = fn.ref then some fn else factory.cache ref

end Factory

section
variable (cus : List CompileUnit)

/-- `function_t::populate`, of a function with this reference and name; `none` for `false`. -/
def Function.populate (n : Nat) (ref : Reference) (name : List UInt8) :
    Except MoveError (Option Function) :=
  match ofReference cus ref with
  | none   => .error .noCompileUnit
  | some w => do
      -- move to DW_TAG_subprogram
      let moved ← moveNext cus n w
      if moved.1 then
        return some {
          ref := ref
          name := name
          lowPc := moved.2.entry.getUint64Attribute dwAtLowPc
          isDeclaration := moved.2.entry.getUint64Attribute dwAtDeclaration ≠ 0 }
      else return none

/-- `make_function`; `none` for a null pointer. -/
def makeFunction (n : Nat) (w : Walker) (factory : Factory) :
    Except MoveError (Option Function × Factory) :=
  match factory.find w.getReference with
  | some fn => .ok (some fn, factory)
  | none    => do
      let made ← Function.populate cus n w.getReference
        ((w.entry.getStringAttribute dwAtName).getD [])
      return (made, made.elim factory factory.add)

/-- `make_function` of a reference. -/
def makeFunctionAt (n : Nat) (ref : Reference) (factory : Factory) :
    Except MoveError (Option Function × Factory) :=
  if ref = Reference.null then .ok (none, factory)
  else
    match ofReference cus ref with
    | none   => .error .noCompileUnit
    | some w => do
        let moved ← moveNext cus n w
        if moved.1 then makeFunction cus n moved.2 factory else return (none, factory)

/-! ### Functions of a unit -/

/-- The loop of `get_functions`, from the entry the walker is at if `found`: what is pushed. -/
def scanFunctions :
    Nat → Bool → Walker → Factory → Except MoveError (List (Option Function) × Factory)
  | 0,     _,     _, _       => .error .outOfFuel
  | _ + 1, false, _, factory => .ok ([], factory)
  | n + 1, true,  w, factory =>
      if w.entry.getTag ≠ dwTagSubprogram ∨ w.entry.getStringAttribute dwAtName = none then do
        let next ← moveNext cus n w
        scanFunctions n next.1 next.2 factory
      else do
        let made ← makeFunction cus n w factory
        let next ← moveNext cus n w
        let rest ← scanFunctions n next.1 next.2 made.2
        return (made.1 :: rest.1, rest.2)

/-- `get_functions` before it sorts. -/
def scanUnit (n : Nat) (cu : CompileUnit) (factory : Factory) :
    Except MoveError (List (Option Function) × Factory) :=
  match ofReference cus cu.makeRootReference with
  | none   => .error .noCompileUnit
  | some w => do
      -- move to DW_TAG_compile_unit
      let root ← moveNext cus n w
      let down ← moveDown root.2
      scanFunctions cus n down.1 down.2 factory

/-- `std::sort` with `compare_functions_by_address`, which is free to put functions with the same
address in any order. -/
structure AddressSort where
  sort : List Function → List Function
  perm : ∀ fns, (sort fns).Perm fns
  sorted : ∀ fns, (sort fns).Pairwise fun fn fn' => fn.getAddress ≤ fn'.getAddress

/-- Why a loop over functions does not return. -/
inductive FunctionsError where
  | move (e : MoveError)
  /-- a null function is looked at -/
  | nullFunction
  deriving DecidableEq

variable (sort : AddressSort)

/-- `get_functions`: what is found, sorted by address; a null pointer among it is read. -/
def getFunctions (n : Nat) (cu : CompileUnit) (factory : Factory) :
    Except FunctionsError (List Function × Factory) :=
  match scanUnit cus n cu factory with
  | .error e            => .error (.move e)
  | .ok (res, factory') =>
      match res.mapM id with
      | none     => .error .nullFunction
      | some fns => .ok (sort.sort fns, factory')

/-! ### Discovery -/

/-- `find_mock_target`, in these units. -/
def findMockTarget (n : Nat) (name : List UInt8) :
    List CompileUnit → Factory → Except FunctionsError (Option Function × Factory)
  | [],          factory => .ok (none, factory)
  | cu :: units, factory => do
      let fns ← getFunctions cus sort n cu factory
      match fns.1.find? fun fn => fn.name = name ∧ fn.isDeclaration = false ∧ fn.getAddress ≠ 0 with
      | some fn => return (some fn, fns.2)
      | none    => findMockTarget n name units fns.2

variable (classify : List UInt8 → FuncType × List UInt8)

/-- What `discover_functions` does with a function, as far as the factory is concerned: the target
of a mock is looked for, by the part of its name that has matched. -/
def considerFunction (n : Nat) (fn : Function) (factory : Factory) :
    Except FunctionsError Factory :=
  if (classify fn.name).1 = .mock ∧ (classify fn.name).2 ≠ [] then do
    let target ← findMockTarget cus sort n (classify fn.name).2 cus factory
    return target.2
  else .ok factory

/-- The loop over the functions of a unit: those that `classify_function` is called for. -/
def discoverAmong (n : Nat) :
    List Function → Factory → Except FunctionsError (List Function × Factory)
  | [],        factory => .ok ([], factory)
  | fn :: fns, factory =>
      -- We want functions which are defined in this compile unit
      if fn.getAddress = 0 then discoverAmong n fns factory
      else do
        let factory' ← considerFunction cus sort classify n fn factory
        let rest ← discoverAmong n fns factory'
        return (fn :: rest.1, rest.2)

/-- The loop over the units. -/
def discoverIn (n : Nat) :
    List CompileUnit → Factory → Except FunctionsError (List Function × Factory)
  | [],          factory => .ok ([], factory)
  | cu :: units, factory => do
      let fns ← getFunctions cus sort n cu factory
      let among ← discoverAmong cus sort classify n fns.1 fns.2
      let rest ← discoverIn n units among.2
      return (among.1 ++ rest.1, rest.2)

end

/-- The units of the state, as `get_compile_units` returns them. -/
def LoadState.getCompileUnits (s : LoadState) : List CompileUnit :=
  s.compileUnits.map LoadedUnit.unit

/-- `discover_functions`: the functions that are considered. -/
def discoverFunctions (sort : AddressSort) (classify : List UInt8 → FuncType × List UInt8)
    (n : Nat) (s : LoadState) : Except FunctionsError (List Function) := do
  let considered ← discoverIn s.getCompileUnits sort classify n s.getCompileUnits {}
  return considered.1

/-! ### The functions there are -/

/-- The string an attribute has, and its number, as `get_string_attribute` and
`get_uint64_attribute` see them. -/
def stringOf : Option Value → Option (List UInt8)
  | some (.string v) => some v
  | _                => none

/-- The number that `get_uint64_attribute` makes of a value. -/
def uint64Of : Option Value → Nat
  | some (.uint32 v) => v
  | some (.uint64 v) => v
  | _                => 0

/-- The function an entry describes. -/
def Node.function (cu : CompileUnit) (d : Node) : Function where
  ref := cu.makeReference d.off
  name := (stringOf (d.attribute dwAtName)).getD []
  lowPc := uint64Of (d.attribute dwAtLowPc)
  isDeclaration := uint64Of (d.attribute dwAtDeclaration) ≠ 0

/-- It has the tag `DW_TAG_subprogram` and a `DW_AT_name`. -/
def Node.IsFunction (d : Node) : Prop :=
  d.decl.tag = dwTagSubprogram ∧ stringOf (d.attribute dwAtName) ≠ none

instance (d : Node) : Decidable d.IsFunction := inferInstanceAs (Decidable (_ ∧ _))

/-- The functions in a list of siblings. -/
def Nodes.functions (cu : CompileUnit) (ds : Nodes) : List Function :=
  (ds.toList.filter fun d => d.IsFunction).map (Node.function cu)

/-- The children of the unit's root entry. -/
structure CompileUnit.HasChildren (cus : List CompileUnit) (cu : CompileUnit) (children : Nodes) :
    Prop where
  root : ∃ d : Node, d.off = headerLength ∧ d.IsRead cu ∧ d.Below cu children
  linked : children.Linked cus cu

/-- The root entry of a tree is read as it is written, with its children behind it. -/
theorem Tree.root_below {fmt : Format} {table : List AbbrevDecl} {cu : CompileUnit}
    (hcu : cu.Holds fmt table) {tree : Tree} (htree : tree.Valid fmt cu.linkObject table)
    {s : List UInt8} (h : cu.HasAt headerLength (tree.body fmt table ++ s)) :
    (tree.root.node fmt table cu headerLength tree.children).IsRead cu ∧
      (tree.root.node fmt table cu headerLength tree.children).Below cu
        (tree.children.nodes fmt table cu (headerLength + (tree.root.encode fmt).length)) := by
  obtain ⟨a, hroot⟩ := htree.root
  have hbelow : tree.root.below fmt table tree.children =
      tree.children.encode fmt table ++ [0] := if_pos htree.hasChildren
  rw [Tree.body, ← hbelow, List.append_assoc] at h
  have hs : 1 ≤ (tree.root.below fmt table tree.children ++ s).length := by
    rw [hbelow]
    simp only [List.length_append, List.length_singleton]
    omega
  refine ⟨Die.isRead hcu hroot hs h tree.children, ?_⟩
  exact Die.node_below hroot (fun hno => absurd htree.hasChildren (by rw [hno]; decide)) h.next
    (Dies.laid hcu htree.children)

/-- The children of a tree as it is written. -/
theorem Tree.hasChildren_nodes {fmt : Format} {table : List AbbrevDecl} {cus : List CompileUnit}
    {cu : CompileUnit} (hcu : cu.Holds fmt table) {tree : Tree}
    (htree : tree.Valid fmt cu.linkObject table) {s : List UInt8}
    (h : cu.HasAt headerLength (tree.body fmt table ++ s))
    (hlinked : (tree.children.nodes fmt table cu
      (headerLength + (tree.root.encode fmt).length)).Linked cus cu) :
    cu.HasChildren cus
      (tree.children.nodes fmt table cu (headerLength + (tree.root.encode fmt).length)) :=
  ⟨⟨_, rfl, Tree.root_below hcu htree h⟩, hlinked⟩

/-- References into the unit lead to it. -/
structure CompileUnit.Known (cus : List CompileUnit) (cu : CompileUnit) : Prop where
  find : cus.find? (·.index = cu.index) = some cu
  size_lt : cu.getContents.bytes.length < 2 ^ 32

/-- What has been made of an entry is its function. -/
def Factory.Sound (cus : List CompileUnit) (factory : Factory) : Prop :=
  ∀ cu d fn, CompileUnit.Known cus cu → Node.IsRead cu d →
    factory.find (cu.makeReference d.off) = some fn → fn = d.function cu

/-- A new factory has nothing in it. -/
theorem sound_new (cus : List CompileUnit) : Factory.Sound cus {} := by
  intro cu d fn _ _ hfind
  cases hfind

section
variable {cus : List CompileUnit} {cu : CompileUnit}

/-! ### One function -/

/-- A reference into a unit is found. -/
theorem CompileUnit.Known.resolve (hcu : cu.Known cus) {off : Nat} (hoff : off < 2 ^ 32) :
    resolveReference cus (cu.makeReference off) = some (cu, off) := by
  rw [resolveReference, makeReference]
  dsimp only
  rw [hcu.find, Nat.mod_eq_of_lt hoff]
  rfl

theorem CompileUnit.Known.off_lt (hcu : cu.Known cus) {d : Node} (hd : d.IsRead cu) :
    d.off < 2 ^ 32 :=
  (hd.inside.lt.trans_le hd.inside.le).trans hcu.size_lt

/-- There is one entry at an offset. -/
theorem Node.IsRead.function_eq {d d' : Node} (hd : d.IsRead cu) (hd' : d'.IsRead cu)
    (hoff : d.off = d'.off) : d.function cu = d'.function cu := by
  obtain ⟨code, r, hcode, -, habbrev, hvalues⟩ := hd.read
  obtain ⟨code', r', hcode', -, habbrev', hvalues'⟩ := hd'.read
  rw [hoff, hcode'] at hcode
  cases hcode
  rw [habbrev'] at habbrev
  have hdecl : d'.decl = d.decl := Option.some.inj habbrev
  rw [hdecl, hvalues] at hvalues'
  have hvals : d.values = d'.values := congrArg Prod.fst (Option.some.inj hvalues')
  have hattr : d.attribute = d'.attribute := by
    funext name
    rw [Node.attribute, Node.attribute, hdecl, hvals]
  rw [Node.function, Node.function, hoff, hattr]

/-- References tell entries apart. -/
theorem CompileUnit.makeReference_inj (hcu : cu.Known cus) {cu' : CompileUnit}
    (hcu' : cu'.Known cus) {d d' : Node} (hd : d.IsRead cu) (hd' : d'.IsRead cu')
    (h : cu.makeReference d.off = cu'.makeReference d'.off) : cu = cu' ∧ d.off = d'.off := by
  obtain ⟨hresolver, hoff⟩ := Reference.mk.inj h
  have hindex : cu.index = cu'.index := Resolver.compileUnit.inj hresolver
  have hfind := hcu.find
  rw [hindex, hcu'.find] at hfind
  rw [Nat.mod_eq_of_lt (hcu.off_lt hd), Nat.mod_eq_of_lt (hcu'.off_lt hd')] at hoff
  exact ⟨(Option.some.inj hfind).symm, hoff⟩

/-- The functions of entries keep the cache sound. -/
theorem Factory.Sound.add {factory : Factory} (hsound : factory.Sound cus) (hcu : cu.Known cus)
    {d : Node} (hd : d.IsRead cu) : (factory.add (d.function cu)).Sound cus := by
  intro cu' d' fn hcu' hd' hfind
  rw [Factory.find, Factory.add] at hfind
  dsimp only at hfind
  split at hfind
  case isTrue href =>
    obtain ⟨rfl, hoff⟩ := CompileUnit.makeReference_inj hcu' hcu hd' hd href
    cases hfind
    exact hd.function_eq hd' hoff.symm
  · exact hsound cu' d' fn hcu' hd' hfind

/-- The walker shows the numbers of the entry that it is at. -/
theorem AtNode.getUint64Attribute {w : Walker} {d : Node} {level : Nat}
    (hat : AtNode cu w d level) (name : Nat) :
    w.entry.getUint64Attribute name = uint64Of (d.attribute name) := by
  have hattr : w.entry.getAttribute = d.attribute := congrArg EntryView.getAttribute hat.view
  rw [← hattr]
  rfl

/-- The walker shows the texts of the entry that it is at. -/
theorem AtNode.getStringAttribute {w : Walker} {d : Node} {level : Nat}
    (hat : AtNode cu w d level) (name : Nat) :
    w.entry.getStringAttribute name = stringOf (d.attribute name) := by
  have hattr : w.entry.getAttribute = d.attribute := congrArg EntryView.getAttribute hat.view
  rw [← hattr]
  rfl

/-- The walker shows the reference of the entry that it is at. -/
theorem AtNode.getReference {w : Walker} {d : Node} {level : Nat} (hat : AtNode cu w d level) :
    w.getReference = cu.makeReference d.off := by
  have hoffset : w.entry.offset = d.off := congrArg EntryView.offset hat.view
  rw [Walker.getReference, hat.stands.compileUnit, hoffset]

/-- **`populate` makes the function of the entry.** -/
theorem populate_at (hcu : cu.Known cus) {d : Node} (hd : d.IsRead cu) (n : Nat) :
    Function.populate cus (n + 1) (cu.makeReference d.off) (d.function cu).name =
      .ok (some (d.function cu)) := by
  obtain ⟨w, w', hw, hmove, hat⟩ :=
    moveNext_ofReference hcu.size_lt (hcu.resolve (hcu.off_lt hd)) hd n
  rw [Function.populate, hw]
  dsimp only
  rw [hmove]
  dsimp only [bind, Except.bind]
  rw [if_pos rfl, hat.getUint64Attribute, hat.getUint64Attribute]
  rfl

/-- **`make_function` makes the function of the entry** a walker is at. -/
theorem makeFunction_at (hcu : cu.Known cus) {w : Walker} {d : Node} {level : Nat}
    (hat : AtNode cu w d level) (hd : d.IsRead cu) {factory : Factory}
    (hsound : factory.Sound cus) :
    ∃ factory', (∀ n, makeFunction cus (n + 1) w factory = .ok (some (d.function cu), factory')) ∧
      factory'.Sound cus := by
  cases hfind : factory.find (cu.makeReference d.off) with
  | some fn =>
      refine ⟨factory, fun n => ?_, hsound⟩
      rw [makeFunction, hat.getReference, hfind, hsound cu d fn hcu hd hfind]
  | none =>
      refine ⟨factory.add (d.function cu), fun n => ?_, hsound.add hcu hd⟩
      have hname : (w.entry.getStringAttribute dwAtName).getD [] = (d.function cu).name := by
        rw [hat.getStringAttribute]
        rfl
      rw [makeFunction, hat.getReference, hfind, hname]
      dsimp only
      rw [populate_at hcu hd]
      rfl

/-- So does the other `make_function`, of the entry a reference leads to. -/
theorem makeFunctionAt_entry (hcu : cu.Known cus) {d : Node} (hd : d.IsRead cu)
    {factory : Factory} (hsound : factory.Sound cus) :
    ∃ factory', (∀ n, makeFunctionAt cus (n + 1) (cu.makeReference d.off) factory =
      .ok (some (d.function cu), factory')) ∧ factory'.Sound cus := by
  obtain ⟨w, w', hw, hmove, hat⟩ :=
    moveNext_ofReference hcu.size_lt (hcu.resolve (hcu.off_lt hd)) hd 0
  obtain ⟨factory', hmake, hsound'⟩ := makeFunction_at hcu hat hd hsound
  have hne : cu.makeReference d.off ≠ Reference.null :=
    fun h => Resolver.noConfusion (congrArg Reference.resolver h)
  refine ⟨factory', fun n => ?_, hsound'⟩
  rw [makeFunctionAt, if_neg hne, hw]
  dsimp only [bind, Except.bind]
  rw [moveNext_mono hmove (Nat.le_add_left 1 n)]
  exact hmake n

/-! ### The functions of a unit -/

/-- The functions among the entries, from the first on. -/
theorem Nodes.functions_cons (cu : CompileUnit) (d : Node) (children siblings : Nodes) :
    (Nodes.cons d children siblings).functions cu =
      if d.IsFunction then d.function cu :: siblings.functions cu else siblings.functions cu := by
  rw [functions, toList, List.filter_cons]
  by_cases hfn : d.IsFunction
  · rw [if_pos (decide_eq_true hfn), if_pos hfn]
    rfl
  · rw [if_neg (by simpa using hfn), if_neg hfn]
    rfl

/-- The entries the scan does not pass over. -/
theorem AtNode.passes_iff {w : Walker} {d : Node} {level : Nat} (hat : AtNode cu w d level) :
    ¬ (w.entry.getTag ≠ dwTagSubprogram ∨ w.entry.getStringAttribute dwAtName = none) ↔
      d.IsFunction := by
  have htag : w.entry.getTag = d.decl.tag := congrArg EntryView.tag hat.view
  rw [hat.getStringAttribute, htag, not_or, not_not]
  rfl

/-- The loop ends behind the last child. -/
theorem scanFunctions_nil {found : Bool} {w : Walker} (hw : Reached cu found w .nil)
    {factory : Factory} (hsound : factory.Sound cus) :
    ∃ n₀ factory', (∀ n ≥ n₀, scanFunctions cus n found w factory =
      .ok ((Nodes.nil.functions cu).map some, factory')) ∧ factory'.Sound cus := by
  cases hw
  refine ⟨1, factory, fun n hn => ?_, hsound⟩
  obtain ⟨n, rfl⟩ := Nat.exists_eq_add_of_le' hn
  rfl

/-- **The scan makes the functions of the list** it is at the start of. -/
theorem scanFunctions_children (hcu : cu.Known cus) {ds : Nodes} {off stop : Nat}
    (h : ds.Laid cu off stop) (hlinked : ds.Linked cus cu) {found : Bool} {w : Walker}
    (hw : Reached cu found w ds) {factory : Factory} (hsound : factory.Sound cus) :
    ∃ n₀ factory', (∀ n ≥ n₀, scanFunctions cus n found w factory =
      .ok ((ds.functions cu).map some, factory')) ∧ factory'.Sound cus := by
  induction ds generalizing off stop found w factory with
  | nil => exact scanFunctions_nil hw hsound
  | cons d children siblings _ ih =>
      obtain ⟨rfl, level, hat⟩ := hw
      obtain ⟨rfl, hd, hchildren, hsiblings⟩ := h
      obtain ⟨n₁, found, w', hnext, hw'⟩ := moveNext_reaches hcu.size_lt hat hchildren hsiblings
        (hlinked d List.mem_cons_self)
      have hnext : ∀ n ≥ n₁, moveNext cus n w = .ok (found, w') :=
        fun n hn => moveNext_mono hnext hn
      have hrest : siblings.Linked cus cu := fun d' hd' => hlinked d' (List.mem_cons_of_mem d hd')
      rw [Nodes.functions_cons]
      by_cases hfn : d.IsFunction
      · obtain ⟨factory₁, hmake, hsound₁⟩ := makeFunction_at hcu hat hd hsound
        obtain ⟨n₂, factory₂, hscan, hsound₂⟩ := ih hsiblings hrest hw' hsound₁
        refine ⟨max n₁ n₂ + 2, factory₂, fun n hn => ?_, hsound₂⟩
        obtain ⟨n, rfl⟩ := Nat.exists_eq_add_of_le' (Nat.le_of_add_left_le hn)
        rw [scanFunctions, if_neg (hat.passes_iff.mpr hfn), hmake, if_pos hfn]
        dsimp only [bind, Except.bind]
        rw [hnext (n + 1) (by omega)]
        dsimp only
        rw [hscan (n + 1) (by omega)]
        rfl
      · obtain ⟨n₂, factory₂, hscan, hsound₂⟩ := ih hsiblings hrest hw' hsound
        refine ⟨max n₁ n₂ + 1, factory₂, fun n hn => ?_, hsound₂⟩
        obtain ⟨n, rfl⟩ := Nat.exists_eq_add_of_le' (Nat.le_of_add_left_le hn)
        rw [scanFunctions, if_pos (not_not.mp (hat.passes_iff.not.mpr hfn)), if_neg hfn]
        dsimp only [bind, Except.bind]
        rw [hnext n (by omega)]
        exact hscan n (by omega)

/-- **A unit is scanned** for all functions among the children of its root. -/
theorem scanUnit_children (hcu : cu.Known cus) {children : Nodes}
    (h : cu.HasChildren cus children) {factory : Factory} (hsound : factory.Sound cus) :
    ∃ n₀ factory', (∀ n ≥ n₀, scanUnit cus n cu factory =
      .ok ((children.functions cu).map some, factory')) ∧ factory'.Sound cus := by
  obtain ⟨d, hoff, hd, hbelow⟩ := h.root
  have hroot : resolveReference cus cu.makeRootReference = some (cu, d.off) := by
    have hlt : headerLength < 2 ^ 32 := by decide
    rw [hoff]
    exact hcu.resolve hlt
  obtain ⟨w, w₁, hw, hmove, hat⟩ := moveNext_ofReference hcu.size_lt hroot hd 0
  obtain ⟨found, w₂, hdown, hreached⟩ := moveDown_reaches hcu.size_lt hat hbelow
  have hscan : ∃ n₀ factory', (∀ n ≥ n₀, scanFunctions cus n found w₂ factory =
      .ok ((children.functions cu).map some, factory')) ∧ factory'.Sound cus := by
    rcases hbelow.cases with rfl | hlaid
    · exact scanFunctions_nil hreached hsound
    · exact scanFunctions_children hcu hlaid h.linked hreached hsound
  obtain ⟨n₀, factory', hscan, hsound'⟩ := hscan
  refine ⟨n₀ + 1, factory', fun n hn => ?_, hsound'⟩
  rw [scanUnit, hw]
  dsimp only [bind, Except.bind]
  rw [moveNext_mono hmove (Nat.le_of_add_left_le hn)]
  dsimp only
  rw [hdown]
  exact hscan n (by omega)

theorem mapM_id_map_some {α : Type} (l : List α) : (l.map some).mapM id = some l := by
  induction l with
  | nil => rfl
  | cons a l ih =>
      rw [List.map_cons, List.mapM_cons, ih]
      rfl

variable (sort : AddressSort)

/-- **`get_functions` returns the functions among the children of the root entry**, by address. -/
theorem getFunctions_children (hcu : cu.Known cus) {children : Nodes}
    (h : cu.HasChildren cus children) {factory : Factory} (hsound : factory.Sound cus) :
    ∃ n₀ factory', (∀ n ≥ n₀, getFunctions cus sort n cu factory =
      .ok (sort.sort (children.functions cu), factory')) ∧ factory'.Sound cus := by
  obtain ⟨n₀, factory', hscan, hsound'⟩ := scanUnit_children hcu h hsound
  refine ⟨n₀, factory', fun n hn => ?_, hsound'⟩
  rw [getFunctions, hscan n hn]
  dsimp only
  rw [mapM_id_map_some]

/-- They are different functions. -/
theorem CompileUnit.HasChildren.nodup (hcu : cu.Known cus) {ds : Nodes}
    (h : cu.HasChildren cus ds) : ((ds.functions cu).map Function.ref).Nodup := by
  obtain ⟨d, -, -, hbelow⟩ := h.root
  obtain ⟨hall, hpairwise⟩ := hbelow.entries
  rw [Nodes.functions, List.map_map, List.Nodup, List.pairwise_map]
  refine (hpairwise.filter _).imp_of_mem fun {d d'} hd hd' hlt href => ?_
  have hread := hall d (List.mem_of_mem_filter hd)
  have hread' := hall d' (List.mem_of_mem_filter hd')
  exact absurd (CompileUnit.makeReference_inj hcu hcu hread hread' href).2 hlt.ne

/-! ### Discovery -/

variable (classify : List UInt8 → FuncType × List UInt8) {children : CompileUnit → Nodes}
  {units : List CompileUnit}

/-- The search for a mock's target returns. -/
theorem findMockTarget_returns (name : List UInt8)
    (hunits : ∀ cu ∈ units, cu.Known cus ∧ cu.HasChildren cus (children cu))
    {factory : Factory} (hsound : factory.Sound cus) :
    ∃ n₀ target factory', (∀ n ≥ n₀, findMockTarget cus sort n name units factory =
      .ok (target, factory')) ∧ factory'.Sound cus := by
  induction units generalizing factory with
  | nil => exact ⟨0, none, factory, fun n _ => rfl, hsound⟩
  | cons cu units ih =>
      obtain ⟨⟨hcu, hchildren⟩, hunits⟩ := List.forall_mem_cons.mp hunits
      obtain ⟨n₁, factory₁, hget, hsound₁⟩ := getFunctions_children sort hcu hchildren hsound
      obtain ⟨n₂, target, factory₂, hrest, hsound₂⟩ := ih hunits hsound₁
      cases hfind : (sort.sort ((children cu).functions cu)).find? fun fn =>
          fn.name = name ∧ fn.isDeclaration = false ∧ fn.getAddress ≠ 0 with
      | some fn =>
          refine ⟨n₁, some fn, factory₁, fun n hn => ?_, hsound₁⟩
          rw [findMockTarget, hget n hn]
          dsimp only [bind, Except.bind]
          rw [hfind]
          rfl
      | none =>
          refine ⟨max n₁ n₂, target, factory₂, fun n hn => ?_, hsound₂⟩
          rw [findMockTarget, hget n (le_of_max_le_left hn)]
          dsimp only [bind, Except.bind]
          rw [hfind]
          exact hrest n (le_of_max_le_right hn)

/-- The functions of a unit that are considered: those with an address. -/
def Function.HasAddress (fn : Function) : Prop := fn.getAddress ≠ 0

instance (fn : Function) : Decidable fn.HasAddress := inferInstanceAs (Decidable (_ ≠ _))

/-- The round for a function returns. -/
theorem considerFunction_returns
    (hcus : ∀ cu ∈ cus, cu.Known cus ∧ cu.HasChildren cus (children cu)) (fn : Function)
    {factory : Factory} (hsound : factory.Sound cus) :
    ∃ n₀ factory', (∀ n ≥ n₀, considerFunction cus sort classify n fn factory = .ok factory') ∧
      factory'.Sound cus := by
  by_cases hmock : (classify fn.name).1 = .mock ∧ (classify fn.name).2 ≠ []
  · obtain ⟨n₀, target, factory', hfind, hsound'⟩ :=
      findMockTarget_returns sort (classify fn.name).2 hcus hsound
    refine ⟨n₀, factory', fun n hn => ?_, hsound'⟩
    rw [considerFunction, if_pos hmock, hfind n hn]
    rfl
  · exact ⟨0, factory, fun n _ => if_neg hmock, hsound⟩

/-- The loop over functions considers those with an address. -/
theorem discoverAmong_considers
    (hcus : ∀ cu ∈ cus, cu.Known cus ∧ cu.HasChildren cus (children cu)) (fns : List Function)
    {factory : Factory} (hsound : factory.Sound cus) :
    ∃ n₀ factory', (∀ n ≥ n₀, discoverAmong cus sort classify n fns factory =
      .ok (fns.filter fun fn => fn.HasAddress, factory')) ∧ factory'.Sound cus := by
  induction fns generalizing factory with
  | nil => exact ⟨0, factory, fun n _ => rfl, hsound⟩
  | cons fn fns ih =>
      by_cases hzero : fn.getAddress = 0
      · obtain ⟨n₀, factory', hrest, hsound'⟩ := ih hsound
        refine ⟨n₀, factory', fun n hn => ?_, hsound'⟩
        rw [discoverAmong, if_pos hzero, hrest n hn, List.filter_cons_of_neg]
        rw [decide_eq_true_eq]
        exact not_not.mpr hzero
      · have haddr : fn.HasAddress := hzero
        obtain ⟨n₁, factory₁, hconsider, hsound₁⟩ :=
          considerFunction_returns sort classify hcus fn hsound
        obtain ⟨n₂, factory₂, hrest, hsound₂⟩ := ih hsound₁
        refine ⟨max n₁ n₂, factory₂, fun n hn => ?_, hsound₂⟩
        rw [discoverAmong, if_neg hzero, hconsider n (le_of_max_le_left hn)]
        dsimp only [bind, Except.bind]
        rw [hrest n (le_of_max_le_right hn), List.filter_cons_of_pos]
        · rfl
        · exact decide_eq_true haddr

/-- **The loop over units** considers the functions of each that have an address. -/
theorem discoverIn_considers
    (hcus : ∀ cu ∈ cus, cu.Known cus ∧ cu.HasChildren cus (children cu)) (hunits : units ⊆ cus)
    {factory : Factory} (hsound : factory.Sound cus) :
    ∃ n₀ factory', (∀ n ≥ n₀, discoverIn cus sort classify n units factory =
      .ok (units.flatMap fun cu =>
        (sort.sort ((children cu).functions cu)).filter fun fn => fn.HasAddress, factory')) ∧
      factory'.Sound cus := by
  induction units generalizing factory with
  | nil => exact ⟨0, factory, fun n _ => rfl, hsound⟩
  | cons cu units ih =>
      obtain ⟨hcu, hunits⟩ := List.cons_subset.mp hunits
      obtain ⟨hknown, hchildren⟩ := hcus cu hcu
      obtain ⟨n₁, factory₁, hget, hsound₁⟩ := getFunctions_children sort hknown hchildren hsound
      obtain ⟨n₂, factory₂, hamong, hsound₂⟩ := discoverAmong_considers sort classify hcus
        (sort.sort ((children cu).functions cu)) hsound₁
      obtain ⟨n₃, factory₃, hrest, hsound₃⟩ := ih hunits hsound₂
      refine ⟨max n₁ (max n₂ n₃), factory₃, fun n hn => ?_, hsound₃⟩
      rw [discoverIn, hget n (by omega)]
      dsimp only [bind, Except.bind]
      rw [hamong n (by omega)]
      dsimp only
      rw [hrest n (by omega), List.flatMap_cons]
      rfl

/-- The functions of different units are different. -/
theorem flatMap_functions_nodup (hindex : (cus.map (·.index)).Nodup)
    (hcus : ∀ cu ∈ cus, cu.Known cus ∧ cu.HasChildren cus (children cu)) :
    ((cus.flatMap fun cu => (children cu).functions cu).map Function.ref).Nodup := by
  rw [List.map_flatMap, List.nodup_flatMap]
  refine ⟨fun cu hcu => (hcus cu hcu).2.nodup (hcus cu hcu).1, ?_⟩
  refine (List.pairwise_map.mp hindex).imp fun {cu cu'} hne => ?_
  intro ref href href'
  obtain ⟨fn, hfn, rfl⟩ := List.mem_map.mp href
  obtain ⟨fn', hfn', heq⟩ := List.mem_map.mp href'
  obtain ⟨d, -, rfl⟩ := List.mem_map.mp hfn
  obtain ⟨d', -, rfl⟩ := List.mem_map.mp hfn'
  exact hne (Resolver.compileUnit.inj (congrArg Reference.resolver heq)).symm

end

/-! ### The units of a state -/

/-- The section is in memory; the addresses of a process have at most 56 bits. -/
def Section.InUserSpace (sec : Section) : Prop := sec.map + sec.bytes.length < 2 ^ 56

section
variable {fuel : Nat} {p : Platform} {calls : List AddCall} {s : LoadState}

/-- The units of a state have different indices. -/
theorem getCompileUnits_index (hs : LoadState.addAll fuel p {} calls = .ok s) :
    (s.getCompileUnits.map (·.index)).Nodup := by
  rw [LoadState.getCompileUnits, List.map_map]
  exact (unitsRead_nil.addAll hs).index ▸ List.nodup_range

/-- References into a unit are found, if its root is read. -/
theorem known_of_root (hs : LoadState.addAll fuel p {} calls = .ok s) {cu : CompileUnit}
    (hcu : cu ∈ s.getCompileUnits) (hmem : (cu.linkObject.getSection .info).InUserSpace)
    {d : Node} (hoff : d.off = headerLength) (hd : d.IsRead cu) :
    cu.Known s.getCompileUnits := by
  obtain ⟨loaded, hloaded, rfl⟩ := List.mem_map.mp hcu
  obtain ⟨cu₀, cu₁, r, r', hheader, hreader, hend⟩ :=
    (unitsRead_nil.addAll hs).header loaded hloaded
  refine ⟨?_, CompileUnit.size_lt hheader hreader (hend.trans_lt hmem) hd hoff⟩
  cases hfind : s.getCompileUnits.find? (·.index = loaded.unit.index) with
  | none => exact absurd (decide_eq_true rfl) (List.find?_eq_none.mp hfind loaded.unit hcu)
  | some c =>
      have hc := List.mem_of_find?_eq_some hfind
      have hindex : c.index = loaded.unit.index := by simpa using List.find?_some hfind
      rw [List.inj_on_of_nodup_map (getCompileUnits_index hs) hc hcu hindex]

/-- References into a unit are found, if its children are read. -/
theorem known_of_hasChildren (hs : LoadState.addAll fuel p {} calls = .ok s) {cu : CompileUnit}
    (hcu : cu ∈ s.getCompileUnits) (hmem : (cu.linkObject.getSection .info).InUserSpace)
    {children : Nodes} (h : cu.HasChildren s.getCompileUnits children) :
    cu.Known s.getCompileUnits := by
  obtain ⟨d, hoff, hd, -⟩ := h.root
  exact known_of_root hs hcu hmem hoff hd

/-- Discovery considers the functions with an address among the children of the root entries. -/
theorem discoverFunctions_perm (hs : LoadState.addAll fuel p {} calls = .ok s)
    (hmem : ∀ cu ∈ s.getCompileUnits, (cu.linkObject.getSection .info).InUserSpace)
    (sort : AddressSort) (classify : List UInt8 → FuncType × List UInt8)
    {children : CompileUnit → Nodes}
    (h : ∀ cu ∈ s.getCompileUnits, cu.HasChildren s.getCompileUnits (children cu)) :
    ∃ n₀ fns, (∀ n ≥ n₀, discoverFunctions sort classify n s = .ok fns) ∧
      fns.Perm ((s.getCompileUnits.flatMap fun cu => (children cu).functions cu).filter
        fun fn => fn.HasAddress) := by
  have hcus : ∀ cu ∈ s.getCompileUnits,
      cu.Known s.getCompileUnits ∧ cu.HasChildren s.getCompileUnits (children cu) :=
    fun cu hcu => ⟨known_of_hasChildren hs hcu (hmem cu hcu) (h cu hcu), h cu hcu⟩
  obtain ⟨n₀, factory', hdiscover, -⟩ :=
    discoverIn_considers sort classify hcus (List.Subset.refl _) (sound_new s.getCompileUnits)
  have hperm : (s.getCompileUnits.flatMap fun cu =>
      (sort.sort ((children cu).functions cu)).filter fun fn => fn.HasAddress).Perm
      ((s.getCompileUnits.flatMap fun cu => (children cu).functions cu).filter
        fun fn => fn.HasAddress) := by
    rw [List.filter_flatMap]
    exact List.Perm.flatMap_left _ fun cu _ => (sort.perm _).filter _
  refine ⟨n₀, _, fun n hn => ?_, hperm⟩
  rw [discoverFunctions, hdiscover n hn]
  rfl

/-- **`get_functions` returns every function among the children of a unit's root entry once**, and
nothing else, by address; **discovery considers every such function with an address once**. -/
theorem discoverFunctions_considers_once (hs : LoadState.addAll fuel p {} calls = .ok s)
    (hmem : ∀ cu ∈ s.getCompileUnits, (cu.linkObject.getSection .info).InUserSpace)
    (sort : AddressSort) (classify : List UInt8 → FuncType × List UInt8) :
    (∀ cu ∈ s.getCompileUnits, ∀ children, cu.HasChildren s.getCompileUnits children →
      ∀ factory, Factory.Sound s.getCompileUnits factory →
        ∃ n₀ fns factory',
          (∀ n ≥ n₀, getFunctions s.getCompileUnits sort n cu factory = .ok (fns, factory')) ∧
          factory'.Sound s.getCompileUnits ∧ fns.Perm (children.functions cu) ∧
          (fns.map Function.ref).Nodup ∧
          fns.Pairwise fun fn fn' => fn.getAddress ≤ fn'.getAddress) ∧
    ∀ children : CompileUnit → Nodes,
      (∀ cu ∈ s.getCompileUnits, cu.HasChildren s.getCompileUnits (children cu)) →
        ∃ n₀ fns, (∀ n ≥ n₀, discoverFunctions sort classify n s = .ok fns) ∧
          fns.Perm ((s.getCompileUnits.flatMap fun cu => (children cu).functions cu).filter
            fun fn => fn.HasAddress) ∧
          (fns.map Function.ref).Nodup := by
  constructor
  · intro cu hcu children h factory hsound
    have hknown := known_of_hasChildren hs hcu (hmem cu hcu) h
    obtain ⟨n₀, factory', hget, hsound'⟩ := getFunctions_children sort hknown h hsound
    have hperm := sort.perm (children.functions cu)
    exact ⟨n₀, _, factory', hget, hsound', hperm,
      (hperm.map Function.ref).nodup_iff.mpr (h.nodup hknown), sort.sorted _⟩
  · intro children h
    obtain ⟨n₀, fns, hdiscover, hperm⟩ := discoverFunctions_perm hs hmem sort classify h
    refine ⟨n₀, fns, hdiscover, hperm, (hperm.map Function.ref).nodup_iff.mpr ?_⟩
    exact (List.filter_sublist.map Function.ref).nodup
      (flatMap_functions_nodup (getCompileUnits_index hs) fun cu hcu =>
        ⟨known_of_hasChildren hs hcu (hmem cu hcu) (h cu hcu), h cu hcu⟩)

end

/-! ### A unit with nested functions -/

/-- A unit with children; functions with and without children, the first with a `DW_AT_sibling`;
and a variable. -/
def nestedAbbrevs : List AbbrevDecl :=
  [{ code := .byte 1, tag := .byte 0x11, children := true, specs := [] },
    { code := .byte 2, tag := .byte 0x2e, children := true,
      specs := [(.byte 0x01, .byte 0x13), (.byte 0x03, .byte 0x08), (.byte 0x11, .byte 0x01)] },
    { code := .byte 3, tag := .byte 0x2e, children := false,
      specs := [(.byte 0x03, .byte 0x08), (.byte 0x11, .byte 0x01)] },
    { code := .byte 4, tag := .byte 0x34, children := false, specs := [(.byte 0x03, .byte 0x08)] }]

/-- A function without children. -/
def functionDie (name : String) (pc : UInt64) : Die :=
  { code := .byte 3, operands := [.string (CString.ascii name), .addr pc] }

/-- A mock, with a function inside it, its target behind a variable, and a function without an
address. -/
def nestedTree : Tree where
  root := unitDie
  children :=
    .cons
      { code := .byte 2, operands := [.ref4 44, .string (CString.ascii "mock_f"), .addr 0x2000] }
      (.cons (functionDie "f" 0x3000) .nil .nil)
      (.cons { code := .byte 4, operands := [.string (CString.ascii "v")] } .nil
        (.cons (functionDie "f" 0x1000) .nil (.cons (functionDie "g" 0) .nil .nil)))

theorem length_nestedTree : (nestedTree.body .four nestedAbbrevs).length + 7 < 0xfffffff0 := by
  decide

/-- Their unit in version 4. -/
def nestedUnit : Unit32 :=
  .ofBody .four (nestedTree.body .four nestedAbbrevs) Format.four_is64 length_nestedTree

theorem length_nestedUnit : 4096 + nestedUnit.encode.length < 2 ^ 63 := by decide
theorem length_nestedAbbrevs : 8192 + (encodeTable nestedAbbrevs).length < 2 ^ 63 := by decide
theorem length_oneLines : 12288 + noLines.encode.length < 2 ^ 63 := by decide

/-- Every file is the object with this unit. -/
def nestedPlatform : Platform where
  selfExe := CString.ascii "/t"
  mapSections _ _ name :=
    if name = .info then ⟨4096, nestedUnit.encode, length_nestedUnit⟩
    else if name = .abbrevs then ⟨8192, encodeTable nestedAbbrevs, length_nestedAbbrevs⟩
    else if name = .line then ⟨12288, noLines.encode, length_oneLines⟩
    else .empty

/-- `add_self`, of an executable alone. -/
def nestedCalls : List AddCall := [.self [{ name := none, slide := 0, mappings := [] }]]

/-- The unit as it is loaded. -/
def IsNestedUnit (cu : CompileUnit) : Prop :=
  cu.version = 4 ∧ cu.reader.bytes = nestedUnit.encode ∧ cu.reader.is64 = false ∧
    cu.abbrevs = none :: nestedAbbrevs.map (fun d => some d.toAbbrev) ∧
    (cu.linkObject.getSection .info).map + (cu.linkObject.getSection .info).bytes.length < 2 ^ 56

instance (cu : CompileUnit) : Decidable (IsNestedUnit cu) :=
  inferInstanceAs (Decidable (_ ∧ _ ∧ _ ∧ _ ∧ _))

/-- The unit is loaded. -/
theorem addAll_nested : ∃ s cu, LoadState.addAll 40 nestedPlatform {} nestedCalls = .ok s ∧
    s.getCompileUnits = [cu] ∧ IsNestedUnit cu := by
  have hrun : (LoadState.addAll 40 nestedPlatform {} nestedCalls).toOption.any (fun s =>
      decide (s.getCompileUnits.length = 1 ∧ ∀ cu ∈ s.getCompileUnits, IsNestedUnit cu)) =
      true := by decide +kernel
  obtain ⟨s, hs, hunits⟩ := exists_of_toOption_any hrun
  obtain ⟨hlen, hall⟩ := of_decide_eq_true hunits
  obtain ⟨cu, hcu⟩ := List.length_eq_one_iff.mp hlen
  exact ⟨s, cu, hs, hcu, hall cu (by rw [hcu]; exact List.mem_singleton_self cu)⟩

theorem nestedAbbrevs_valid : ∀ d ∈ nestedAbbrevs, d.Valid := by
  intro d hd
  simp only [nestedAbbrevs, List.mem_cons, List.not_mem_nil, or_false] at hd
  rcases hd with rfl | rfl | rfl | rfl
  · exact ⟨by decide, by decide, by decide, by decide, by decide⟩
  · exact ⟨by decide, by decide, by decide, by decide, by decide⟩
  · exact ⟨by decide, by decide, by decide, by decide, by decide⟩
  · exact ⟨by decide, by decide, by decide, by decide, by decide⟩

/-- In a table with the codes 1, 2 and so on, an abbreviation stands at the place of its code. -/
theorem lookupAbbrev_numbered {table : List AbbrevDecl}
    (hcodes : ∀ i d, table[i]? = some d → d.code.toNat = i + 1) (code : Nat) :
    lookupAbbrev table code = ((none :: table.map fun d => some d.toAbbrev)[code]?).join := by
  rw [lookupAbbrev]
  cases code with
  | zero =>
      have hno : table.reverse.find? (·.code.toNat = 0) = none := by
        refine List.find?_eq_none.mpr fun d hd => ?_
        obtain ⟨i, hi⟩ := List.mem_iff_getElem?.mp (List.mem_reverse.mp hd)
        simp [hcodes i d hi]
      rw [hno]
      rfl
  | succ code =>
      rw [List.getElem?_cons_succ, List.getElem?_map]
      cases hfind : table.reverse.find? (·.code.toNat = code + 1) with
      | none =>
          cases hget : table[code]? with
          | none => rfl
          | some d =>
              have hd := List.mem_reverse.mpr (List.mem_of_getElem? hget)
              exact absurd (decide_eq_true (hcodes code d hget)) (List.find?_eq_none.mp hfind d hd)
      | some e =>
          have he : e.code.toNat = code + 1 := by simpa using List.find?_some hfind
          obtain ⟨i, hi⟩ :=
            List.mem_iff_getElem?.mp (List.mem_reverse.mp (List.mem_of_find?_eq_some hfind))
          obtain rfl : i = code := Nat.succ.inj ((hcodes i e hi).symm.trans he)
          rw [hi]
          rfl

/-- The contents are of the unit's buffer and format. -/
theorem CompileUnit.getContents_frame (cu : CompileUnit) :
    cu.getContents.bytes = cu.reader.bytes ∧ cu.getContents.is64 = cu.reader.is64 := by
  rw [CompileUnit.getContents, Read.skip]
  split
  · exact ⟨rfl, rfl⟩
  · exact ⟨rfl, rfl⟩

/-- A unit with such a table, as `read_abbrevs` keeps it. -/
theorem CompileUnit.holds_numbered {cu : CompileUnit} {table : List AbbrevDecl}
    (hcodes : ∀ i d, table[i]? = some d → d.code.toNat = i + 1) (hvalid : ∀ d ∈ table, d.Valid)
    (hversion : cu.version = 4) (h64 : cu.reader.is64 = false)
    (habbrevs : cu.abbrevs = none :: table.map fun d => some d.toAbbrev) :
    cu.Holds .four table := by
  refine ⟨hversion, cu.getContents_frame.2.trans h64, fun code => ?_, hvalid⟩
  rw [lookupAbbrev_numbered hcodes, CompileUnit.getAbbrev, habbrevs]
  split
  case isTrue hge =>
    rw [List.getElem?_eq_none hge]
    rfl
  · rfl

theorem nestedAbbrevs_code :
    ∀ i d, nestedAbbrevs[i]? = some d → d.code.toNat = i + 1 := by
  rintro (_ | _ | _ | _ | i) d hd
  all_goals cases hd
  all_goals rfl

/-- A function with a name can be written. -/
theorem functionDie_valid (lo : LinkObject) {name : String} (hname : 0 ∉ CString.ascii name)
    (pc : UInt64) : ∃ a, (functionDie name pc).Valid .four lo nestedAbbrevs a := by
  have hnumber : True ∧ True := ⟨trivial, trivial⟩
  refine ⟨_, rfl, rfl, ?_⟩
  exact List.forall_mem_cons.mpr ⟨⟨hname, trivial⟩, List.forall_mem_singleton.mpr hnumber⟩

/-- The tree can be written. -/
theorem nestedTree_valid (lo : LinkObject) : nestedTree.Valid .four lo nestedAbbrevs where
  root := ⟨_, rfl, rfl, fun _ hop => absurd hop List.not_mem_nil⟩
  hasChildren := by decide
  children := by
    have hmock : (0 : UInt8) ∉ CString.ascii "mock_f" := by decide
    have hvariable : (0 : UInt8) ∉ CString.ascii "v" := by decide
    have hnumber : True ∧ True := ⟨trivial, trivial⟩
    refine ⟨⟨_, rfl, rfl, ?_⟩, fun hno => absurd hno (by decide),
      ⟨functionDie_valid lo (by decide) _, fun _ => rfl, trivial, trivial⟩,
      ⟨_, rfl, rfl, ?_⟩, fun _ => rfl, trivial,
      functionDie_valid lo (by decide) _, fun _ => rfl, trivial,
      functionDie_valid lo (by decide) _, fun _ => rfl, trivial, trivial⟩
    · exact List.forall_mem_cons.mpr ⟨hnumber,
        List.forall_mem_cons.mpr ⟨⟨hmock, trivial⟩, List.forall_mem_singleton.mpr hnumber⟩⟩
    · exact List.forall_mem_singleton.mpr ⟨hvariable, trivial⟩

/-- The `DW_AT_sibling` of the mock points at the variable. -/
theorem nested_linked {cus : List CompileUnit} {cu : CompileUnit}
    (hfind : cus.find? (·.index = cu.index) = some cu) :
    (nestedTree.children.nodes .four nestedAbbrevs cu 12).Linked cus cu := by
  refine List.forall_mem_cons.mpr ⟨fun ref href => ?_, List.forall_mem_cons.mpr
    ⟨fun ref href => ?_, List.forall_mem_cons.mpr ⟨fun ref href => ?_,
      List.forall_mem_singleton.mpr fun ref href => ?_⟩⟩⟩
  · cases href
    rw [resolveReference]
    dsimp only
    rw [hfind]
    rfl
  · cases href
  · cases href
  · cases href

/-- A merge sort leaves the functions in the order of their addresses. -/
theorem addressMergeSort_sorted (fns : List Function) :
    (fns.mergeSort fun fn fn' => fn.getAddress ≤ fn'.getAddress).Pairwise
      fun fn fn' => fn.getAddress ≤ fn'.getAddress := by
  refine (List.pairwise_mergeSort (fun a b c hab hbc => ?_) (fun a b => ?_) fns).imp fun h => ?_
  · simp only [decide_eq_true_eq] at hab hbc ⊢
    exact hab.trans hbc
  · simp only [Bool.or_eq_true, decide_eq_true_eq]
    exact Nat.le_total ..
  · simpa using h

/-- The children of the unit's root entry. -/
theorem nested_hasChildren {cus : List CompileUnit} {cu : CompileUnit} (h : IsNestedUnit cu)
    (hfind : cus.find? (·.index = cu.index) = some cu) :
    cu.HasChildren cus (nestedTree.children.nodes .four nestedAbbrevs cu 12) := by
  obtain ⟨hversion, hbytes, h64, habbrevs, -⟩ := h
  have hholds := CompileUnit.holds_numbered nestedAbbrevs_code nestedAbbrevs_valid hversion h64
    habbrevs
  have hcontents : cu.getContents.bytes = nestedUnit.encode := cu.getContents_frame.1.trans hbytes
  have hat : cu.HasAt headerLength (nestedTree.body .four nestedAbbrevs ++ []) := by
    constructor
    · rw [hcontents]
      decide
    · rw [hcontents]
      decide
  exact Tree.hasChildren_nodes hholds (nestedTree_valid cu.linkObject) hat (nested_linked hfind)

/-- Addresses are sorted by merging. -/
def addressMergeSort : AddressSort where
  sort fns := fns.mergeSort fun fn fn' => fn.getAddress ≤ fn'.getAddress
  perm := fun fns => List.mergeSort_perm fns _
  sorted := addressMergeSort_sorted

/-- A name that starts with `mock_` is that of a mock. -/
def classifyMock (name : List UInt8) : FuncType × List UInt8 :=
  if (CString.ascii "mock_").isPrefixOf name then (.mock, name.drop 5) else (.unknown, [])

/-- The mock and its target are considered; the function inside the mock is not, nor is the one
without an address. -/
theorem discoverFunctions_considers_nested :
    ∃ s n₀ fns, LoadState.addAll 40 nestedPlatform {} nestedCalls = .ok s ∧
      (∀ n ≥ n₀, discoverFunctions addressMergeSort classifyMock n s = .ok fns) ∧
      (fns.map fun fn => (fn.name, fn.getAddress)).Perm
        [(CString.ascii "mock_f", 0x2000), (CString.ascii "f", 0x1000)] := by
  obtain ⟨s, cu, hs, hunits, hcu⟩ := addAll_nested
  have hmem : ∀ cu ∈ s.getCompileUnits, (cu.linkObject.getSection .info).InUserSpace := by
    rw [hunits, List.forall_mem_singleton]
    exact hcu.2.2.2.2
  have hchildren : ∀ cu ∈ s.getCompileUnits, cu.HasChildren s.getCompileUnits
      (nestedTree.children.nodes .four nestedAbbrevs cu 12) := by
    rw [hunits, List.forall_mem_singleton]
    exact nested_hasChildren hcu (List.find?_cons_of_pos (decide_eq_true rfl))
  obtain ⟨n₀, fns, hdiscover, hperm, -⟩ :=
    (discoverFunctions_considers_once hs hmem addressMergeSort classifyMock).2 _ hchildren
  refine ⟨s, n₀, fns, hs, hdiscover, ?_⟩
  rw [hunits] at hperm
  exact hperm.map fun fn => (fn.name, fn.getAddress)

end NovaProva.Dwarf
