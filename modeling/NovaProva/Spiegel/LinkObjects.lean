import NovaProva.Spiegel.Loading
import NovaProva.Spiegel.Mapping
import NovaProva.Core.Event

/-!
# Spiegel — Link objects

`state_t::add_self` and `add_executable`: the link objects of the process or one more file are
added to the state, then the compile units of all its link objects are read, and the ranges of all
its functions entered into the address index.  A file that is there already is not added again; but
its compile units are read again, by every call.  And the index is one of recorded addresses: of two
link objects with functions at the same it knows one (`add_lists_once_iff`).
-/

namespace NovaProva.Dwarf

/-! ### The state -/

/-- A `link_object_t` with its name. -/
structure NamedObject where
  filename : Filename
  object : LinkObject

/-- A `platform::linkobj_t`; the name of the executable is null. -/
structure PlatformObject where
  name : Option Filename
  slide : Nat
  mappings : List Mapping

/-- The platform: the name of the executable, and what `map_sections` maps of a file for which the
system has these mappings. -/
structure Platform where
  selfExe : Filename
  mapSections : Filename → List Mapping → SectionName → Section

/-- `state_t`. -/
structure LoadState where
  linkObjects : List NamedObject := []
  compileUnits : List LoadedUnit := []
  addressIndex : RangeTree Nat Reference := {}
  linkObjectIndex : RangeTree Nat LinkObject := {}

/-- A call that adds objects to the state. -/
inductive AddCall where
  /-- `add_self`, with what `get_linkobjs` returns -/
  | self (los : List PlatformObject)
  /-- `add_executable` -/
  | executable (filename : Filename)

/-- The prefixes of `filename_is_ignored`. -/
def ignoredPrefixes : List Filename :=
  ["/bin/", "/lib/", "/lib64/", "/usr/bin/", "/usr/lib/", "/usr/lib64/", "/opt/", "linux-gate.so",
    "linux-vdso.so"].map CString.ascii

/-- `filename_is_ignored`. -/
def filenameIsIgnored (f : Filename) : Bool := ignoredPrefixes.any fun p => p.isPrefixOf f

/-- Valgrind's preloaded objects, which `read_link_objects` passes over. -/
def isPreloaded (f : Filename) : Bool :=
  match f.findLastOf with
  | none   => false
  | some i => (CString.ascii "/vgpreload_").isPrefixOf (f.drop i)

/-- The compile units of the object are read. -/
def NamedObject.isRead (o : NamedObject) : Bool :=
  !isPreloaded o.filename && o.object.hasSections

/-- What stops the reading of attributes, as what stops a move. -/
def Stop.toMoveError : Stop → MoveError
  | .fatal f   => .fatal f
  | .outOfFuel => .outOfFuel

namespace LoadState

/-- `get_link_object`, of those that are there. -/
def getLinkObject (s : LoadState) (filename : Filename) : Option NamedObject :=
  s.linkObjects.find? fun o => o.filename = filename

/-- `make_link_object`, with the sections it will have. -/
def makeLinkObject (p : Platform) (s : LoadState) (filename : Filename) (slide : Nat)
    (mappings : List Mapping) : LoadState :=
  let lo : LinkObject :=
    { id := s.linkObjects.length, slide := slide, getSection := p.mapSections filename mappings }
  { s with
    linkObjects := s.linkObjects ++ [{ filename := filename, object := lo }]
    linkObjectIndex := mappings.foldl
      (fun t m => t.insert { lo := m.map, hi := (m.map + m.size) % 2 ^ 64 } lo)
      s.linkObjectIndex }

/-- A round of the loop of `add_self`. -/
def addObject (p : Platform) (s : LoadState) (o : PlatformObject) : LoadState :=
  let filename := o.name.getD p.selfExe
  if filenameIsIgnored filename then s
  else if (s.getLinkObject filename).isSome then s
  else s.makeLinkObject p filename o.slide o.mappings

/-- The link objects a call adds. -/
def addObjects (p : Platform) (s : LoadState) : AddCall → LoadState
  | .self los            => los.foldl (addObject p) s
  | .executable filename =>
      if (s.getLinkObject filename).isSome then s else s.makeLinkObject p filename 0 []

/-- `read_link_objects`: the compile units behind it.  `map_sections` succeeds. -/
def readLinkObjects : List NamedObject → List LoadedUnit → Except MoveError (List LoadedUnit)
  | [],      units => .ok units
  | o :: os, units =>
      if o.isRead then
        match readCompileUnits o.object units with
        | .error e   => .error e
        | .ok units' => readLinkObjects os units'
      else readLinkObjects os units

/-- `prepare_address_index`; the fuel bounds the entries that are read of a unit. -/
def prepareIndex (fuel : Nat) (s : LoadState) : Except MoveError LoadState :=
  match recordedRanges fuel (s.compileUnits.map LoadedUnit.unit) with
  | .error e => .error e.toMoveError
  | .ok recs => .ok { s with
      addressIndex := recs.foldl (fun t e => t.insert e.range e.function) s.addressIndex }

/-- `add_self` and `add_executable`. -/
def add (fuel : Nat) (p : Platform) (s : LoadState) (c : AddCall) : Except MoveError LoadState :=
  let s := s.addObjects p c
  match readLinkObjects s.linkObjects s.compileUnits with
  | .error e  => .error e
  | .ok units => prepareIndex fuel { s with compileUnits := units }

/-- A sequence of calls. -/
def addAll (fuel : Nat) (p : Platform) : LoadState → List AddCall → Except MoveError LoadState
  | s, []      => .ok s
  | s, c :: cs =>
      match s.add fuel p c with
      | .error e => .error e
      | .ok s'   => addAll fuel p s' cs

end LoadState

/-! ### The compile units of a link object -/

/-- Where the compile units of `.debug_info` start, by their headers. -/
def unitOffsetsFrom (lo : LinkObject) : Nat → Reader → List Nat
  | 0,     _ => []
  | n + 1, r =>
      match CompileUnit.readHeader { index := 0, linkObject := lo } r with
      | .ok (some cu, r') => cu.offset :: unitOffsetsFrom lo n r'
      | _                 => []

/-- The offsets of the units in `.debug_info`, as `read_compile_units` comes to them. -/
def LinkObject.unitOffsets (lo : LinkObject) : List Nat :=
  unitOffsetsFrom lo ((lo.getSection .info).bytes.length + 1) (lo.getSection .info).getContents

/-- The units of the state that are of a link object. -/
def LoadState.unitsOf (s : LoadState) (lo : LinkObject) : List LoadedUnit :=
  s.compileUnits.filter fun cu => cu.unit.linkObject.id = lo.id

/-- What the state should have after some calls: the compile units of every link object once each,
and an address index whose references are into them and that leads from every address of every
function to the function's unit. -/
structure ListedOnce (fuel : Nat) (s : LoadState) : Prop where
  units : ∀ o ∈ s.linkObjects, o.isRead = true →
    (s.unitsOf o.object).map (·.unit.offset) = o.object.unitOffsets
  references : ∀ e ∈ s.addressIndex.map, ∃ cu ∈ s.compileUnits,
    e.2.resolver = .compileUnit cu.unit.index ∧
      ∀ cu' ∈ s.compileUnits, cu'.unit.index = cu.unit.index → cu' = cu
  ranges : ∀ recs, recordedRanges fuel (s.compileUnits.map LoadedUnit.unit) = .ok recs →
    ∀ e ∈ recs, ∀ x, e.range.Covers x →
      ∃ d, s.addressIndex.find x = some d ∧ d.2.resolver = e.function.resolver

/-- The ranges of the functions of all link objects behind a call, each read once, can be told from
one another in one index. -/
def LoadState.Indexable (fuel : Nat) (p : Platform) (s : LoadState) (c : AddCall) : Prop :=
  ∀ units recs, readLinkObjects (s.addObjects p c).linkObjects [] = .ok units →
    recordedRanges fuel (units.map LoadedUnit.unit) = .ok recs → Dwarf.Indexable recs

/-- Every read of the object reads all its units. -/
def ReadsAll (lo : LinkObject) : Prop :=
  ∀ units more, readCompileUnits lo units = .ok (units ++ more) →
    more.length = lo.unitOffsets.length

/-! ### Reading a link object -/

/-- The number a compile unit is given plays no part in reading its header. -/
theorem readHeader_index {cu cu' : CompileUnit} {r r' : Reader}
    (h : cu.readHeader r = .ok (some cu', r')) (i : Nat) :
    cu'.index = cu.index ∧ cu'.linkObject = cu.linkObject ∧
      CompileUnit.readHeader { cu with index := i } r =
        .ok (some { cu' with index := i }, r') := by
  unfold CompileUnit.readHeader at h ⊢
  rcases h₁ : Read.readInitialLength r with ⟨_ | ⟨length, is64⟩, r₁⟩
  · rw [h₁] at h
    cases h
  rw [h₁] at h
  dsimp only at h ⊢
  split at h
  · cases h
  next hremains =>
    rw [if_neg hremains]
    rcases h₂ : Read.readU16 r₁ with ⟨_ | version, r₂⟩
    · rw [h₂] at h
      cases h
    rw [h₂] at h
    dsimp only at h ⊢
    split at h
    · cases h
    next hversion =>
      split at h
      · cases h
      next hlength =>
        rw [if_neg hversion, if_neg hlength]
        split at h
        · cases h
        split at h
        · cases h
        next haddr =>
          cases h
          rw [if_neg haddr]
          exact ⟨rfl, rfl, rfl⟩

/-- What a round of the loop pushes. -/
theorem readUnit_some {lo : LinkObject} {units : List LoadedUnit}
    {infor abbrevr liner infor' abbrevr' liner' : Reader} {cu : LoadedUnit}
    (h : readUnit lo units infor abbrevr liner = .ok (some (cu, infor', abbrevr', liner'))) :
    cu.unit.index = units.length ∧ cu.unit.linkObject = lo ∧
      ∃ cu₀, CompileUnit.readHeader { index := 0, linkObject := lo } infor =
        .ok (some cu₀, infor') ∧ cu₀.offset = cu.unit.offset ∧ cu₀.reader = cu.unit.reader := by
  unfold readUnit at h
  split at h
  · cases h
  · cases h
  next cu₁ infor₁ hheader =>
    obtain ⟨hindex, hobject, hzero⟩ := readHeader_index hheader 0
    unfold CompileUnit.readRest at h
    split at h
    · cases h
    · cases h
    split at h
    · cases h
    · cases h
    obtain ⟨rfl, rfl, -⟩ := Prod.mk.inj (Option.some.inj (Except.ok.inj h))
    exact ⟨hindex, hobject, { cu₁ with index := 0 }, hzero, rfl, rfl⟩

/-- The units a read of a link object adds: with numbers from `start` on, and with those of all
its units. -/
structure UnitsFrom (lo : LinkObject) (start : Nat) (more : List LoadedUnit) : Prop where
  object : ∀ cu ∈ more, cu.unit.linkObject = lo
  index : more.map (·.unit.index) = List.range' start more.length

/-- The loop adds units of its object, with the next indices, as far as it comes. -/
theorem readCompileUnitsLoop_units {lo : LinkObject} {n : Nat} {units units' : List LoadedUnit}
    {infor abbrevr liner : Reader}
    (h : readCompileUnitsLoop lo n units infor abbrevr liner = .ok units') :
    ∃ more, units' = units ++ more ∧ UnitsFrom lo units.length more ∧
      more.map (·.unit.offset) <+: unitOffsetsFrom lo n infor := by
  induction n generalizing units infor abbrevr liner with
  | zero =>
      rw [readCompileUnitsLoop] at h
      cases h
  | succ n ih =>
      rcases hround : readUnit lo units infor abbrevr liner with
        e | _ | ⟨cu, infor', abbrevr', liner'⟩
      · rw [readCompileUnitsLoop, hround] at h
        cases h
      · rw [readCompileUnitsLoop_break hround] at h
        cases h
        exact ⟨[], (List.append_nil _).symm, ⟨fun _ hcu => absurd hcu List.not_mem_nil, rfl⟩,
          List.nil_prefix⟩
      · rw [readCompileUnitsLoop_push hround] at h
        obtain ⟨more, rfl, ⟨hobject, hindex⟩, hoffsets⟩ := ih h
        obtain ⟨hcu, hlo, cu₀, hheader, hoff, -⟩ := readUnit_some hround
        refine ⟨cu :: more, List.append_cons units cu more ▸ rfl, ⟨?_, ?_⟩, ?_⟩
        · exact List.forall_mem_cons.mpr ⟨hlo, hobject⟩
        · rw [List.map_cons, List.length_cons, List.range'_succ, hcu, hindex, List.length_append]
          rfl
        · rw [unitOffsetsFrom, hheader]
          dsimp only
          rw [List.map_cons, hoff]
          exact List.cons_prefix_cons.mpr ⟨rfl, hoffsets⟩

/-- Where the loop comes to the end, it adds all units of its object. -/
theorem readCompileUnits_units {lo : LinkObject} (hreads : ReadsAll lo)
    {units units' : List LoadedUnit} (h : readCompileUnits lo units = .ok units') :
    ∃ more, units' = units ++ more ∧ UnitsFrom lo units.length more ∧
      more.map (·.unit.offset) = lo.unitOffsets := by
  obtain ⟨more, rfl, hmore, hoffsets⟩ := readCompileUnitsLoop_units h
  refine ⟨more, rfl, hmore, hoffsets.eq_of_length ?_⟩
  rw [List.length_map]
  exact hreads units more h

/-! ### Reading all link objects -/

section
variable {os : List NamedObject} {units units' : List LoadedUnit}

/-- The units `read_link_objects` adds. -/
structure Rereads (os : List NamedObject) (more : List LoadedUnit) : Prop where
  object : ∀ cu ∈ more, ∃ o ∈ os, o.isRead = true ∧ cu.unit.linkObject = o.object
  /-- all units of every object -/
  offsets : ∀ o ∈ os, o.isRead = true →
    (more.filter fun cu => cu.unit.linkObject.id = o.object.id).map (·.unit.offset) =
      o.object.unitOffsets

/-- The units of an object are its own. -/
theorem filter_units_self {lo : LinkObject} {start : Nat} {more : List LoadedUnit}
    (h : UnitsFrom lo start more) :
    more.filter (fun cu => cu.unit.linkObject.id = lo.id) = more := by
  refine List.filter_eq_self.mpr fun cu hcu => ?_
  rw [h.object cu hcu]
  exact decide_eq_true rfl

/-- They are of no other object. -/
theorem filter_units_of_ne {lo : LinkObject} {start id : Nat} {more : List LoadedUnit}
    (h : UnitsFrom lo start more) (hne : lo.id ≠ id) :
    more.filter (fun cu => cu.unit.linkObject.id = id) = [] := by
  refine List.filter_eq_nil_iff.mpr fun cu hcu => ?_
  rw [h.object cu hcu]
  simpa using hne

/-- **All objects are read again**, and their units are put behind those that are there. -/
theorem readLinkObjects_rereads (hids : (os.map (·.object.id)).Nodup)
    (hreads : ∀ o ∈ os, o.isRead = true → ReadsAll o.object)
    (h : LoadState.readLinkObjects os units = .ok units') :
    ∃ more, units' = units ++ more ∧ Rereads os more ∧
      more.map (·.unit.index) = List.range' units.length more.length := by
  induction os generalizing units with
  | nil =>
      cases h
      exact ⟨[], (List.append_nil _).symm, ⟨fun _ hcu => absurd hcu List.not_mem_nil,
        fun _ ho => absurd ho List.not_mem_nil⟩, rfl⟩
  | cons o os ih =>
      obtain ⟨hnot, hids'⟩ := List.nodup_cons.mp hids
      have hne : ∀ o' ∈ os, o.object.id ≠ o'.object.id := by
        intro o' ho' he
        exact hnot (List.mem_map.mpr ⟨o', ho', he.symm⟩)
      have hreads' : ∀ o' ∈ os, o'.isRead = true → ReadsAll o'.object :=
        fun o' ho' => hreads o' (List.mem_cons_of_mem _ ho')
      rw [LoadState.readLinkObjects] at h
      split at h
      case isTrue hread =>
        split at h
        · cases h
        next units₁ hunits₁ =>
          obtain ⟨more₁, rfl, hmore₁, hoffsets₁⟩ :=
            readCompileUnits_units (hreads o List.mem_cons_self hread) hunits₁
          obtain ⟨more₂, rfl, ⟨hobject₂, hoffsets₂⟩, hindex₂⟩ := ih hids' hreads' h
          refine ⟨more₁ ++ more₂, List.append_assoc .., ⟨fun cu hcu => ?_, fun o' ho' hread' => ?_⟩,
            ?_⟩
          · rcases List.mem_append.mp hcu with hcu | hcu
            · exact ⟨o, List.mem_cons_self, hread, hmore₁.object cu hcu⟩
            · obtain ⟨o', ho', hboth⟩ := hobject₂ cu hcu
              exact ⟨o', List.mem_cons_of_mem _ ho', hboth⟩
          · rw [List.filter_append, List.map_append]
            rcases List.mem_cons.mp ho' with rfl | ho'
            · -- no other object has its id
              have hnone : more₂.filter (fun cu => cu.unit.linkObject.id = o'.object.id) = [] := by
                refine List.filter_eq_nil_iff.mpr fun cu hcu => ?_
                obtain ⟨o₂, ho₂, -, hlo⟩ := hobject₂ cu hcu
                rw [hlo]
                simpa using (hne o₂ ho₂).symm
              rw [filter_units_self hmore₁, hoffsets₁, hnone]
              exact List.append_nil _
            · rw [filter_units_of_ne hmore₁ (hne o' ho'), hoffsets₂ o' ho' hread']
              rfl
          · rw [List.map_append, hmore₁.index, hindex₂, List.length_append, List.length_append,
              List.range'_append_1]
      case isFalse hread =>
        obtain ⟨more, rfl, ⟨hobject, hoffsets⟩, hindex⟩ := ih hids' hreads' h
        refine ⟨more, rfl, ⟨fun cu hcu => ?_, fun o' ho' hread' => ?_⟩, hindex⟩
        · obtain ⟨o', ho', hboth⟩ := hobject cu hcu
          exact ⟨o', List.mem_cons_of_mem _ ho', hboth⟩
        · rcases List.mem_cons.mp ho' with rfl | ho'
          · exact absurd hread' hread
          · exact hoffsets o' ho' hread'

end

/-! ### Calls -/

section
variable {fuel : Nat} {p : Platform} {s t : LoadState} {c : AddCall}

/-- A call adds link objects behind those there are, with their own ids. -/
structure Adds (s t : LoadState) : Prop where
  objects : s.linkObjects <+: t.linkObjects
  ids : s.linkObjects.map (·.object.id) = List.range s.linkObjects.length →
    t.linkObjects.map (·.object.id) = List.range t.linkObjects.length
  units : t.compileUnits = s.compileUnits
  index : t.addressIndex = s.addressIndex
  same : t.linkObjects = s.linkObjects → t = s

theorem Adds.refl (s : LoadState) : Adds s s := ⟨List.prefix_refl _, id, rfl, rfl, fun _ => rfl⟩

theorem Adds.trans {u : LoadState} (h : Adds s t) (h' : Adds t u) : Adds s u := by
  refine ⟨h.objects.trans h'.objects, fun hids => h'.ids (h.ids hids), h'.units.trans h.units,
    h'.index.trans h.index, fun he => ?_⟩
  have hst : t.linkObjects = s.linkObjects := by
    refine (h.objects.eq_of_length_le ?_).symm
    rw [← he]
    exact h'.objects.length_le
  rw [h'.same (he.trans hst.symm), h.same hst]

/-- An object that is made is added. -/
theorem adds_makeLinkObject (s : LoadState) (filename : Filename) (slide : Nat)
    (mappings : List Mapping) : Adds s (s.makeLinkObject p filename slide mappings) := by
  refine ⟨List.prefix_append _ _, fun hids => ?_, rfl, rfl, fun he => ?_⟩
  · show (s.linkObjects ++ [_]).map _ = List.range (s.linkObjects ++ [_]).length
    rw [List.map_append, hids, List.length_append, List.length_singleton, List.range_succ]
    rfl
  · have hlen : (s.linkObjects ++ [_]).length = s.linkObjects.length := congrArg List.length he
    rw [List.length_append] at hlen
    exact absurd hlen (Nat.succ_ne_self _)

/-- An object is added, unless it is ignored or there already. -/
theorem adds_addObject (s : LoadState) (o : PlatformObject) : Adds s (s.addObject p o) := by
  rw [LoadState.addObject]
  split
  · exact .refl s
  · split
    · exact .refl s
    · exact adds_makeLinkObject ..

/-- The objects of a call are added. -/
theorem adds_addObjects (s : LoadState) (c : AddCall) : Adds s (s.addObjects p c) := by
  cases c with
  | self los =>
      rw [LoadState.addObjects]
      induction los generalizing s with
      | nil => exact .refl s
      | cons o los ih => exact (adds_addObject s o).trans (ih (s.addObject p o))
  | executable filename =>
      rw [LoadState.addObjects]
      split
      · exact .refl s
      · exact adds_makeLinkObject ..

/-- What a call does behind that. -/
theorem add_eq_ok (h : s.add fuel p c = .ok t) :
    ∃ s' units recs, s' = s.addObjects p c ∧ Adds s s' ∧
      LoadState.readLinkObjects s'.linkObjects s'.compileUnits = .ok units ∧
      recordedRanges fuel (units.map LoadedUnit.unit) = .ok recs ∧
      t = { s' with
        compileUnits := units
        addressIndex := recs.foldl (fun t e => t.insert e.range e.function) s'.addressIndex } := by
  unfold LoadState.add at h
  dsimp only at h
  split at h
  · cases h
  next units hunits =>
    unfold LoadState.prepareIndex at h
    split at h
    · cases h
    next recs hrecs =>
      exact ⟨_, units, recs, rfl, adds_addObjects s c, hunits, hrecs, (Except.ok.inj h).symm⟩

/-- The states that calls lead to. -/
structure LoadInv (s : LoadState) : Prop where
  ids : s.linkObjects.map (·.object.id) = List.range s.linkObjects.length
  index : s.compileUnits.map (·.unit.index) = List.range s.compileUnits.length
  object : ∀ cu ∈ s.compileUnits, ∃ o ∈ s.linkObjects, o.isRead = true ∧
    cu.unit.linkObject = o.object
  /-- where there are no units, no object has any, and no function is indexed -/
  empty : s.compileUnits = [] →
    (∀ o ∈ s.linkObjects, o.isRead = true → o.object.unitOffsets = []) ∧ s.addressIndex.map = []

/-- The empty state. -/
theorem loadInv_init : LoadInv {} :=
  ⟨rfl, rfl, fun _ h => absurd h List.not_mem_nil,
    fun _ => ⟨fun _ h => absurd h List.not_mem_nil, rfl⟩⟩

/-- A call lists the objects that it adds. -/
theorem add_linkObjects (h : s.add fuel p c = .ok t) :
    t.linkObjects = (s.addObjects p c).linkObjects := by
  unfold LoadState.add LoadState.prepareIndex at h
  dsimp only at h
  split at h
  · cases h
  · split at h
    · cases h
    · cases h
      rfl

/-- A call adds objects behind those that were there. -/
theorem add_extends (h : s.add fuel p c = .ok t) : s.linkObjects <+: t.linkObjects := by
  rw [add_linkObjects h]
  exact (adds_addObjects s c).objects

/-- The units behind a call: those there were, and those of all link objects. -/
theorem LoadInv.add_units (hinv : LoadInv s) (h : s.add fuel p c = .ok t)
    (hreads : ∀ o ∈ t.linkObjects, o.isRead = true → ReadsAll o.object) :
    ∃ more, t.compileUnits = s.compileUnits ++ more ∧ Rereads t.linkObjects more ∧
      more.map (·.unit.index) = List.range' s.compileUnits.length more.length := by
  obtain ⟨s', units, recs, -, hadds, hunits, -, rfl⟩ := add_eq_ok h
  have hnodup : (s'.linkObjects.map (·.object.id)).Nodup := by
    rw [hadds.ids hinv.ids]
    exact List.nodup_range
  obtain ⟨more, rfl, hmore, hindex⟩ := readLinkObjects_rereads hnodup hreads hunits
  rw [hadds.units] at hindex ⊢
  exact ⟨more, rfl, hmore, hindex⟩

/-- Where nothing is read there was nothing. -/
theorem Rereads.unitOffsets_eq_nil {os : List NamedObject} (h : Rereads os []) :
    ∀ o ∈ os, o.isRead = true → o.object.unitOffsets = [] :=
  fun o ho hread => (h.offsets o ho hread).symm

/-- **A call keeps the invariant.** -/
theorem LoadInv.add (hinv : LoadInv s) (h : s.add fuel p c = .ok t)
    (hreads : ∀ o ∈ t.linkObjects, o.isRead = true → ReadsAll o.object) : LoadInv t := by
  obtain ⟨more, hunits, hmore, hindex⟩ := hinv.add_units h hreads
  obtain ⟨s', units, recs, -, hadds, -, hrecs, rfl⟩ := add_eq_ok h
  have hunits : units = s.compileUnits ++ more := hunits
  refine ⟨hadds.ids hinv.ids, ?_, fun cu hcu => ?_, fun hnil => ?_⟩
  · show units.map _ = List.range units.length
    rw [hunits, List.map_append, hinv.index, hindex, List.length_append, List.range_eq_range',
      List.range_eq_range', ← List.range'_append_1, Nat.zero_add]
  · have hcu : cu ∈ s.compileUnits ++ more := hunits ▸ hcu
    rcases List.mem_append.mp hcu with hcu | hcu
    · obtain ⟨o, ho, hboth⟩ := hinv.object cu hcu
      exact ⟨o, hadds.objects.subset ho, hboth⟩
    · exact hmore.object cu hcu
  · have hnil : units = [] := hnil
    obtain ⟨hs, hmore'⟩ := List.append_eq_nil_iff.mp (hunits.symm.trans hnil)
    subst hmore'
    refine ⟨hmore.unitOffsets_eq_nil, ?_⟩
    rw [hnil] at hrecs
    cases hrecs
    show s'.addressIndex.map = []
    rw [hadds.index]
    exact (hinv.empty hs).2

/-- No call takes objects away. -/
theorem addAll_extends {calls : List AddCall} (h : s.addAll fuel p calls = .ok t) :
    s.linkObjects <+: t.linkObjects := by
  induction calls generalizing s with
  | nil =>
      cases h
      exact List.prefix_refl _
  | cons c calls ih =>
      unfold LoadState.addAll at h
      split at h
      · cases h
      next s₁ hs₁ =>
        exact (add_extends hs₁).trans (ih h)

/-- A sequence of calls keeps the invariant. -/
theorem LoadInv.addAll {calls : List AddCall} (hinv : LoadInv s)
    (h : s.addAll fuel p calls = .ok t)
    (hreads : ∀ o ∈ t.linkObjects, o.isRead = true → ReadsAll o.object) : LoadInv t := by
  induction calls generalizing s with
  | nil =>
      cases h
      exact hinv
  | cons c calls ih =>
      unfold LoadState.addAll at h
      split at h
      · cases h
      next s₁ hs₁ =>
        have hread₁ : ∀ o ∈ s₁.linkObjects, o.isRead = true → ReadsAll o.object :=
          fun o ho => hreads o ((addAll_extends h).subset ho)
        exact ih (hinv.add hs₁ hread₁) h

/-! ### Every unit -/

/-- `read_header` has read the unit, in the section of its link object. -/
def CompileUnit.HeaderRead (cu : CompileUnit) : Prop :=
  ∃ cu₀ cu₁ r r', CompileUnit.readHeader cu₀ r = .ok (some cu₁, r') ∧ cu.reader = cu₁.reader ∧
    r.end_ = (cu.linkObject.getSection .info).getContents.end_

/-- The units `read_compile_units` pushes: each has its place as its number. -/
structure UnitsRead (units : List LoadedUnit) : Prop where
  index : units.map (·.unit.index) = List.range units.length
  header : ∀ cu ∈ units, cu.unit.HeaderRead

theorem unitsRead_nil : UnitsRead [] := ⟨rfl, fun _ h => absurd h List.not_mem_nil⟩

namespace UnitsRead

variable {units units' : List LoadedUnit}

/-- A round keeps to the units that are read so far. -/
theorem push (hunits : UnitsRead units) {lo : LinkObject}
    {infor abbrevr liner infor' abbrevr' liner' : Reader} {cu : LoadedUnit}
    (hend : infor.end_ = (lo.getSection .info).getContents.end_)
    (h : readUnit lo units infor abbrevr liner = .ok (some (cu, infor', abbrevr', liner'))) :
    UnitsRead (units ++ [cu]) ∧ infor'.end_ = (lo.getSection .info).getContents.end_ := by
  obtain ⟨hindex, hobject, cu₀, hheader, -, hreader⟩ := readUnit_some h
  refine ⟨⟨?_, fun cu' hcu' => ?_⟩, (readHeader_section hheader).trans hend⟩
  · rw [List.map_append, hunits.index, List.length_append, List.map_singleton, hindex]
    exact List.range_succ.symm
  · rcases List.mem_append.mp hcu' with hold | hnew
    · exact hunits.header cu' hold
    · cases List.mem_singleton.mp hnew
      exact ⟨_, cu₀, infor, infor', hheader, hreader.symm, hobject ▸ hend⟩

/-- The loop keeps to them. -/
theorem loop (hunits : UnitsRead units) {lo : LinkObject} {n : Nat}
    {infor abbrevr liner : Reader} (hend : infor.end_ = (lo.getSection .info).getContents.end_)
    (h : readCompileUnitsLoop lo n units infor abbrevr liner = .ok units') : UnitsRead units' := by
  obtain ⟨-, hread, -⟩ := readCompileUnitsLoop_invariant
    (I := fun us r => UnitsRead us ∧ r.end_ = (lo.getSection .info).getContents.end_)
    (fun hus hround => hus.1.push hus.2 hround) ⟨hunits, hend⟩ h
  exact hread

/-- `read_link_objects` keeps to them. -/
theorem readLinkObjects (hunits : UnitsRead units) {os : List NamedObject}
    (h : LoadState.readLinkObjects os units = .ok units') : UnitsRead units' := by
  induction os generalizing units with
  | nil =>
      cases h
      exact hunits
  | cons o os ih =>
      unfold LoadState.readLinkObjects at h
      split at h
      · split at h
        · cases h
        next units₁ hread =>
          exact ih (hunits.loop rfl hread) h
      · exact ih hunits h

/-- Any calls keep to them. -/
theorem addAll (hunits : UnitsRead s.compileUnits) {calls : List AddCall}
    (h : s.addAll fuel p calls = .ok t) : UnitsRead t.compileUnits := by
  induction calls generalizing s with
  | nil =>
      cases h
      exact hunits
  | cons c calls ih =>
      unfold LoadState.addAll at h
      split at h
      · cases h
      next s₁ hs₁ =>
        obtain ⟨s', units, recs, -, hadds, hread, -, rfl⟩ := add_eq_ok hs₁
        rw [hadds.units] at hread
        exact ih (hunits.readLinkObjects hread) h

end UnitsRead

/-! ### Units that are listed once -/

/-- Where units were read before, some are listed twice. -/
theorem LoadInv.not_listedOnce (hinv : LoadInv s) (h : s.add fuel p c = .ok t)
    (hreads : ∀ o ∈ t.linkObjects, o.isRead = true → ReadsAll o.object)
    (hne : s.compileUnits ≠ []) : ¬ ListedOnce fuel t := by
  intro hlisted
  obtain ⟨more, hunits, hmore, -⟩ := hinv.add_units h hreads
  obtain ⟨cu, hcu⟩ := List.exists_mem_of_ne_nil _ hne
  obtain ⟨o, ho, hread, hlo⟩ := hinv.object cu hcu
  have ho' : o ∈ t.linkObjects := (add_extends h).subset ho
  have hall := congrArg List.length (hlisted.units o ho' hread)
  have hagain := congrArg List.length (hmore.offsets o ho' hread)
  rw [LoadState.unitsOf, hunits, List.filter_append, List.length_map, List.length_append] at hall
  rw [List.length_map] at hagain
  have hpos : 0 < (s.compileUnits.filter fun cu => cu.unit.linkObject.id = o.object.id).length := by
    refine List.length_pos_of_mem (List.mem_filter.mpr ⟨hcu, ?_⟩)
    rw [hlo]
    exact decide_eq_true rfl
  omega

/-- The ranges are inserted one after the other. -/
theorem insert_recorded_eq (recs : List Recorded) {t : RangeTree Nat Reference} (ht : t.map = []) :
    recs.foldl (fun t e => t.insert e.range e.function) t = addressIndexOf recs := by
  obtain ⟨m⟩ := t
  cases ht
  rw [addressIndexOf, RangeTree.insertAll, List.foldl_map]

/-- The index behind a call before which no unit was read. -/
theorem LoadInv.index_first (hinv : LoadInv s) (h : s.add fuel p c = .ok t)
    (hnil : s.compileUnits = []) :
    ∃ recs, LoadState.readLinkObjects (s.addObjects p c).linkObjects [] = .ok t.compileUnits ∧
      recordedRanges fuel (t.compileUnits.map LoadedUnit.unit) = .ok recs ∧
      t.addressIndex = addressIndexOf recs := by
  obtain ⟨s', units, recs, hs', hadds, hunits, hrecs, rfl⟩ := add_eq_ok h
  rw [hadds.units, hnil, hs'] at hunits
  refine ⟨recs, hunits, hrecs, insert_recorded_eq recs ?_⟩
  rw [hadds.index]
  exact (hinv.empty hnil).2

/-- Units that are read for the first time are listed once. -/
theorem LoadInv.listedOnce (hinv : LoadInv s) (h : s.add fuel p c = .ok t)
    (hreads : ∀ o ∈ t.linkObjects, o.isRead = true → ReadsAll o.object)
    (hnil : s.compileUnits = []) (hindexable : s.Indexable fuel p c) : ListedOnce fuel t := by
  obtain ⟨more, hunits, hmore, -⟩ := hinv.add_units h hreads
  have hinv' := hinv.add h hreads
  obtain ⟨recs, hread, hrecs, hindex⟩ := hinv.index_first h hnil
  rw [hnil, List.nil_append] at hunits
  refine ⟨fun o ho hread => ?_, fun e he => ?_, fun recs' hrecs' => ?_⟩
  · rw [LoadState.unitsOf, hunits]
    exact hmore.offsets o ho hread
  · rw [hindex, addressIndexOf, RangeTree.map_insertAll] at he
    obtain ⟨d, hd, hval⟩ := List.mem_map.mp
      ((OrdMap.mem_values_insertAll he).resolve_right List.not_mem_nil)
    obtain ⟨r, hr, rfl⟩ := List.mem_map.mp hd
    obtain ⟨cu₀, hcu₀, -, hres⟩ := exists_unit_of_recorded hrecs hr
    obtain ⟨cu, hcu, rfl⟩ := List.mem_map.mp hcu₀
    refine ⟨cu, hcu, by rw [← hval]; exact hres, fun cu' hcu' hsame => ?_⟩
    have hnodup : (t.compileUnits.map (·.unit.index)).Nodup := by
      rw [hinv'.index]
      exact List.nodup_range
    exact List.inj_on_of_nodup_map hnodup hcu' hcu hsame
  · cases hrecs.symm.trans hrecs'
    rw [hindex]
    exact (find_addressIndexOf_iff recs).mpr (hindexable _ recs hread hrecs)

/-- An index that leads to the units was made of ranges that can be told from one another. -/
theorem LoadInv.indexable (hinv : LoadInv s) (h : s.add fuel p c = .ok t)
    (hnil : s.compileUnits = []) (hlisted : ListedOnce fuel t) : s.Indexable fuel p c := by
  obtain ⟨recs, hread, hrecs, hindex⟩ := hinv.index_first h hnil
  intro units' recs' hread' hrecs'
  cases hread.symm.trans hread'
  cases hrecs.symm.trans hrecs'
  refine (find_addressIndexOf_iff recs).mp ?_
  rw [← hindex]
  exact hlisted.ranges recs hrecs

/-- With no unit read before, a call for files that are there changes nothing. -/
theorem LoadInv.add_same (hinv : LoadInv s) (h : s.add fuel p c = .ok t)
    (hreads : ∀ o ∈ t.linkObjects, o.isRead = true → ReadsAll o.object)
    (hnil : s.compileUnits = []) (hsame : t.linkObjects = s.linkObjects) : t = s := by
  obtain ⟨more, hunits, hmore, -⟩ := hinv.add_units h hreads
  have hmore' : more = [] := by
    refine List.eq_nil_iff_forall_not_mem.mpr fun cu hcu => ?_
    obtain ⟨o, ho, hread, hlo⟩ := hmore.object cu hcu
    have hoff := hmore.offsets o ho hread
    rw [(hinv.empty hnil).1 o (hsame ▸ ho) hread, List.map_eq_nil_iff] at hoff
    have hmem : cu ∈ more.filter fun cu => cu.unit.linkObject.id = o.object.id :=
      List.mem_filter.mpr ⟨hcu, by rw [hlo]; exact decide_eq_true rfl⟩
    rw [hoff] at hmem
    cases hmem
  obtain ⟨s', units, recs, -, hadds, -, hrecs, rfl⟩ := add_eq_ok h
  have hunits : units = [] := by
    rw [hmore', hnil] at hunits
    exact hunits
  rw [hunits] at hrecs ⊢
  cases hrecs
  rw [hadds.same hsame, ← hnil]
  rfl

/-- **A call lists every compile unit once and indexes every function, and leaves the state alone
if its files are there**, exactly if no call before it has read a compile unit and the ranges of all
functions can be told from one another in one index. -/
theorem add_lists_once_iff {calls : List AddCall}
    (hs : LoadState.addAll fuel p {} calls = .ok s) (ht : s.add fuel p c = .ok t)
    (hreads : ∀ o ∈ t.linkObjects, o.isRead = true → ReadsAll o.object) :
    (ListedOnce fuel t ∧ (t.linkObjects = s.linkObjects → t = s)) ↔
      s.compileUnits = [] ∧ s.Indexable fuel p c := by
  have hinv : LoadInv s :=
    loadInv_init.addAll hs fun o ho => hreads o ((add_extends ht).subset ho)
  constructor
  · rintro ⟨hlisted, -⟩
    have hnil : s.compileUnits = [] := by
      by_contra hne
      exact hinv.not_listedOnce ht hreads hne hlisted
    exact ⟨hnil, hinv.indexable ht hnil hlisted⟩
  · rintro ⟨hnil, hindexable⟩
    exact ⟨hinv.listedOnce ht hreads hnil hindexable, hinv.add_same ht hreads hnil⟩

end

/-! ### Two files -/

/-- Units in step with their line number programs are all read. -/
theorem readsAll_of_inStep {lo : LinkObject} {us : List InfoUnit} {ls : List LineUnit}
    (h : HasUnits lo us ls) (hstep : InStep 0 us ls) (hlen : us.length = lo.unitOffsets.length) :
    ReadsAll lo := by
  intro units more hread
  obtain ⟨more', hread', hright⟩ := (readCompileUnits_inStep_iff h units).mpr hstep
  rw [hread] at hread'
  rw [List.append_cancel_left (Except.ok.inj hread'), ← hright.length_eq, hlen]

theorem length_pcUnit (pc : UInt64) : (encodeContents .four 0
    ((functionTree pc).root.encode .four ++
      ((functionTree pc).children.encode .four pcAbbrevs ++ [0]))).length < 0xfffffff0 := by
  have hlen : (encodeContents .four 0 ((functionTree pc).root.encode .four ++
      ((functionTree pc).children.encode .four pcAbbrevs ++ [0]))).length = 22 := rfl
  omega

/-- A unit with a function of 256 bytes. -/
def pcUnit (pc : UInt64) : InfoUnit where
  fmt := .four
  abbrevOffset := 0
  table := pcAbbrevs
  root := (functionTree pc).root
  rest := (functionTree pc).children.encode .four pcAbbrevs ++ [0]
  abbrevOffset_lt := abbrevOffset_zero_lt
  length_lt := fun _ => length_pcUnit pc

theorem length_pcUnits (pc : UInt64) :
    4096 + ([pcUnit pc].flatMap InfoUnit.encode).length < 2 ^ 63 := by
  have hlen : ([pcUnit pc].flatMap InfoUnit.encode).length = 26 := rfl
  omega

theorem length_pcLines : 12288 + ([noLines].flatMap LineUnit.encode).length < 2 ^ 63 := by decide

theorem length_pcAbbrevs : 8192 + (encodeTable pcAbbrevs).length < 2 ^ 63 := by decide

/-- The sections of a file with that unit. -/
def pcSections (pc : UInt64) (name : SectionName) : Section :=
  if name = .info then ⟨4096, [pcUnit pc].flatMap InfoUnit.encode, length_pcUnits pc⟩
  else if name = .abbrevs then ⟨8192, encodeTable pcAbbrevs, length_pcAbbrevs⟩
  else if name = .line then ⟨12288, [noLines].flatMap LineUnit.encode, length_pcLines⟩
  else .empty

/-- An executable with a function at `4096`, and libraries with one at `pc`. -/
def pcPlatform (pc : UInt64) : Platform where
  selfExe := CString.ascii "t"
  mapSections filename _ := pcSections (if filename = CString.ascii "t" then 4096 else pc)

/-- The executable and a library, as the platform finds them. -/
def pcObjects : List PlatformObject :=
  [{ name := none, slide := 0x10000,
     mappings := [{ offset := 0, size := 0x4000, map := 0x10000 }] },
    { name := some (CString.ascii "l.so"), slide := 0x20000,
      mappings := [{ offset := 0, size := 0x4000, map := 0x20000 }] }]

/-- The unit can be written. -/
theorem pcUnit_valid {lo : LinkObject} {pc q : UInt64} (hlo : lo.getSection = pcSections q) :
    (pcUnit pc).Valid lo where
  abbrevs_valid := by
    intro d hd
    rcases List.mem_cons.mp hd with rfl | hd
    · exact ⟨by decide, by decide, by decide, by decide, nofun⟩
    · obtain rfl := List.mem_singleton.mp hd
      exact ⟨by decide, by decide, by decide, by decide, by decide⟩
  abbrevOffset_le := Nat.zero_le _
  abbrevs_eq := by
    rw [hlo]
    exact ⟨[], (List.append_nil _).symm⟩
  root_valid := ⟨_, rfl, rfl, nofun⟩

/-- The sections have the unit. -/
theorem hasUnits_pc {lo : LinkObject} {pc : UInt64} (hlo : lo.getSection = pcSections pc) :
    HasUnits lo [pcUnit pc] [noLines] := by
  refine ⟨by rw [hlo]; rfl, by rw [hlo]; rfl, ?_, ?_, ?_⟩
  · simp only [List.forall_mem_singleton]
    exact pcUnit_valid hlo
  · simp only [List.forall_mem_singleton]
    exact noLines_fits
  · simp only [List.forall_mem_singleton]
    exact nofun

/-- The object is read to its end. -/
theorem readsAll_pc {lo : LinkObject} {pc : UInt64} (hlo : lo.getSection = pcSections pc)
    (hlen : 1 = lo.unitOffsets.length) : ReadsAll lo :=
  readsAll_of_inStep (hasUnits_pc hlo) ⟨⟨rfl, trivial⟩, nofun, trivial⟩ hlen

/-- What was evaluated. -/
theorem exists_of_toOption_any {ε α : Type} {x : Except ε α} {q : α → Bool}
    (h : x.toOption.any q = true) : ∃ a, x = .ok a ∧ q a = true := by
  cases x with
  | error e => cases h
  | ok a => exact ⟨a, rfl, h⟩

/-- The ranges of the functions of the two files. -/
def pcRecorded (pc : Nat) : List Recorded :=
  [{ linkObject := 0, range := { lo := 4096, hi := 4352 }
     function := { resolver := .compileUnit 0, offset := 12 } },
    { linkObject := 1, range := { lo := pc, hi := pc + 256 }
      function := { resolver := .compileUnit 1, offset := 12 } }]

theorem indexable_pcRecorded : Indexable (pcRecorded 8192) := by
  have hapart : ∀ x, ({ lo := 4096, hi := 4352 } : Range Nat).Covers x →
      ¬ ({ lo := 8192, hi := 8448 } : Range Nat).Covers x :=
    comparable_iff.mp (.inl (by decide))
  refine ⟨fun e he f hf hne x hxe hxf => ?_, fun e he x hx => ⟨e.range, ?_, hx⟩⟩
  · simp only [pcRecorded, List.mem_cons, List.not_mem_nil, or_false] at he hf
    rcases he with rfl | rfl <;> rcases hf with rfl | rfl
    · exact hne rfl
    · exact hapart x hxe hxf
    · exact hapart x hxf hxe
    · exact hne rfl
  · have hkept : RangeTree.kept ((pcRecorded 8192).map (·.range)) =
        (pcRecorded 8192).map (·.range) := by decide
    rw [hkept]
    exact List.mem_map_of_mem he

/-- The first call lists the units of the executable and of a library with other addresses, and
indexes their functions. -/
theorem add_lists_once_first :
    ∃ t, LoadState.add 20 (pcPlatform 8192) {} (.self pcObjects) = .ok t ∧
      t.compileUnits.length = 2 ∧ t.addressIndex.size = 2 ∧ ListedOnce 20 t := by
  have hrun : (LoadState.add 20 (pcPlatform 8192) {} (.self pcObjects)).toOption.any
      (fun t => t.compileUnits.length = 2 ∧ t.addressIndex.size = 2) = true := by decide +kernel
  obtain ⟨t, ht, hlen⟩ := exists_of_toOption_any hrun
  obtain ⟨hunits, hsize⟩ := of_decide_eq_true hlen
  refine ⟨t, ht, hunits, hsize, ?_⟩
  have hnone : LoadState.addAll 20 (pcPlatform 8192) {} [] = .ok {} := rfl
  refine ((add_lists_once_iff hnone ht fun o ho _ => ?_).mpr ⟨rfl, ?_⟩).1
  · rw [add_linkObjects ht] at ho
    rcases List.mem_cons.mp ho with rfl | ho
    · exact readsAll_pc rfl (by decide +kernel)
    · rw [List.mem_singleton.mp ho]
      exact readsAll_pc rfl (by decide +kernel)
  · intro units recs hread hrecs
    have hrecorded : (LoadState.readLinkObjects
        (LoadState.addObjects (pcPlatform 8192) {} (.self pcObjects)).linkObjects []).toOption.any
          (fun units => (recordedRanges 20 (units.map LoadedUnit.unit)).toOption =
            some (pcRecorded 8192)) = true := by decide +kernel
    obtain ⟨units', hread', heval⟩ := exists_of_toOption_any hrecorded
    cases hread.symm.trans hread'
    have heval := of_decide_eq_true heval
    rw [hrecs] at heval
    rw [Option.some.inj heval]
    exact indexable_pcRecorded

/-! ### A file twice -/

/-- Every file is the object with two units. -/
def stmtPlatform : Platform where
  selfExe := []
  mapSections _ _ := (stmtObject 0 18).getSection

theorem readsAll_stmtObject : ReadsAll (stmtObject 0 18) := by
  have hblocks : ∀ off, BlocksInside Format.four (stmtUnit off).root.operands [] :=
    fun off => ⟨nofun, trivial⟩
  have hstep : InStep 0 [stmtUnit 0, stmtUnit 18] [noLines, noLines] :=
    ⟨⟨rfl, hblocks 0⟩, fun o ho => (Option.some.inj ho).symm, ⟨rfl, hblocks 18⟩,
      fun o ho => (Option.some.inj ho).symm, trivial⟩
  exact readsAll_of_inStep (hasUnits_stmtObject 0 18 (.inl rfl) (.inr rfl)) hstep
    (by decide +kernel)

/-- A file is added twice: its units are listed twice. -/
theorem add_lists_twice :
    ∃ s t, LoadState.addAll 20 stmtPlatform {} [.executable [97]] = .ok s ∧
      s.add 20 stmtPlatform (.executable [97]) = .ok t ∧
      (∀ o ∈ t.linkObjects, o.isRead = true → ReadsAll o.object) ∧
      t.linkObjects = s.linkObjects ∧ t ≠ s ∧ ¬ ListedOnce 20 t := by
  have hrun : (LoadState.addAll 20 stmtPlatform {} [.executable [97]]).toOption.any
      (fun s => s.compileUnits.length = 2 &&
        (s.add 20 stmtPlatform (.executable [97])).toOption.any
          fun t => t.compileUnits.length = 4) = true := by decide +kernel
  obtain ⟨s, hs, hrun⟩ := exists_of_toOption_any hrun
  rw [Bool.and_eq_true, decide_eq_true_iff] at hrun
  obtain ⟨hlen, hrun⟩ := hrun
  obtain ⟨t, ht, hlen'⟩ := exists_of_toOption_any hrun
  have hlen' : t.compileUnits.length = 4 := of_decide_eq_true hlen'
  have hadd : LoadState.add 20 stmtPlatform {} (.executable [97]) = .ok s := by
    unfold LoadState.addAll at hs
    split at hs
    · cases hs
    next hadd =>
      cases hs
      exact hadd
  have hobjects : s.linkObjects = [⟨[97], stmtObject 0 18⟩] := add_linkObjects hadd
  have hsame : t.linkObjects = s.linkObjects := by
    rw [add_linkObjects ht, LoadState.addObjects, LoadState.getLinkObject, hobjects]
    exact hobjects
  have hreads : ∀ o ∈ t.linkObjects, o.isRead = true → ReadsAll o.object := by
    intro o ho _
    rw [hsame, hobjects] at ho
    rw [List.mem_singleton.mp ho]
    exact readsAll_stmtObject
  refine ⟨s, t, hs, ht, hreads, hsame, ?_, ?_⟩
  · rintro rfl
    omega
  · have hinv : LoadInv s := loadInv_init.addAll hs fun o ho => hreads o (hsame ▸ ho)
    refine hinv.not_listedOnce ht hreads fun hnil => ?_
    rw [hnil] at hlen
    cases hlen

end NovaProva.Dwarf
