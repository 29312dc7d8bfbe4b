import NovaProva.Tree.Classifier
import NovaProva.Tree.Jobs
import NovaProva.Tree.Names

/-!
# Tree — Discovery

`testmanager_t::discover_functions`: every function of the program that has the name, the type and
the parameters of a test, a fixture, a mock or a parameter is attached to the node of its file, or
for a test to a node of its own below that.

* `discoverFunctions`: the loop over all functions.
* `declaration`: what a function declares, and where; `content`: what the declarations for a path
  come to.
* `discoverFunctions_tree`: the tree that is built holds at every path what is declared for it.
-/

namespace NovaProva

/-! ### Functions -/

/-- `TC_VOID`. -/
def tcVoid : Nat := 1 <<< 8

/-- `TC_POINTER`. -/
def tcPointer : Nat := 2 <<< 8

/-- `TC_SIGNED_INT`. -/
def tcSignedInt : Nat := 4 <<< 8 ||| 1 <<< 7 ||| 4

/-- `__np_param_dec`. -/
structure ParamDec where
  var : Nat
  values : CString
  few : (valuesOf values).length < 2 ^ 32

/-- `function_t`, with what its methods return: the classification of its return type, how many
parameters it has, and what it returns when it is called as one without parameters that returns a
pointer. -/
structure Reflected where
  func : Func
  address : Nat
  liveAddress : Nat
  isDeclaration : Bool
  fullName : CString
  returnType : Nat
  parameterTypes : Nat
  result : Option ParamDec

/-! ### The code -/

/-- `find_last_of('.')` and `resize`. -/
def stripExtension (name : List UInt8) : List UInt8 :=
  match name.reverse.dropWhile (· ≠ Filename.dot) with
  | []        => name
  | _ :: rest => rest.reverse

/-- `test_name`. -/
def testName (fn : Reflected) (submatch : List UInt8) : CString :=
  CString.ofBuffer (stripExtension fn.func.path.bytes ++
    if submatch ≠ [] then Filename.slash :: submatch else [])

/-- `find_mock_target`, among the functions of the units. -/
def findMockTarget (units : List (List Reflected)) (name : List UInt8) : Option Reflected :=
  units.findSome? fun fns => fns.find? fun fn =>
    fn.func.name.bytes = name ∧ fn.isDeclaration = false ∧ fn.address ≠ 0

/-- `get_param_dec`, which calls the function; what `invoke` returns is no pointer unless the type
of the function is one to a pointer. -/
def getParamDec (fn : Reflected) : Option ParamDec :=
  if fn.liveAddress = 0 ∨ fn.parameterTypes > 0 ∨ fn.returnType ≠ tcPointer then none
  else fn.result

/-- Why the loop does not return. -/
inductive DiscoveryError where
  | makePath (e : Fault)
  /-- `assert(!submatch[0])` -/
  | assertion
  /-- there is nothing behind the `__np_param_dec *` -/
  | noDeclaration
  deriving DecidableEq

/-- `root_->make_path(name)`, and what is attached to the node. -/
def attachAt (h : Heap) (name : CString) (x : Attachment) : Except DiscoveryError Heap :=
  match makePath h name with
  | .error e    => .error (.makePath e)
  | .ok (h', c) => .ok (h'.modify c fun cell => x.attach cell)

/-- The size of `submatch`. -/
def maxSubmatch : Nat := 512

/-- `add_mock` of two functions. -/
def mockBy (target mock : Reflected) : Attachment :=
  .mock ⟨target.liveAddress, some target.fullName, mock.liveAddress⟩

/-- `add_parameter`. -/
def parameterOf (submatch : List UInt8) (dec : ParamDec) : Attachment :=
  .parameter (Declaration.parameter ⟨CString.ofBuffer submatch, dec.var, dec.values, dec.few⟩)

/-- A turn of the loop over the functions of a unit: the tree, and `ntests`. -/
def discoverFunction (units : List (List Reflected)) (s : Heap × Nat) (fn : Reflected) :
    Except DiscoveryError (Heap × Nat) :=
  -- We want functions which are defined in this compile unit
  if fn.address = 0 then .ok s
  else
    match classifyFunction fn.func.name.bytes maxSubmatch with
    | (.unknown, _) => .ok s
    | (.test, submatch) =>
        if submatch = [] then .ok s
        else if fn.returnType ≠ tcVoid then .ok s
        else if fn.parameterTypes ≠ 0 then .ok s
        else (attachAt s.1 (testName fn submatch) (.function .test fn.func)).map (·, s.2 + 1)
    | (.before, submatch) =>
        if submatch ≠ [] then .error .assertion
        else if fn.returnType ≠ tcSignedInt then .ok s
        else if fn.parameterTypes ≠ 0 then .ok s
        else (attachAt s.1 (testName fn submatch) (.function .before fn.func)).map (·, s.2)
    | (.after, submatch) =>
        if submatch ≠ [] then .error .assertion
        else if fn.returnType ≠ tcSignedInt then .ok s
        else if fn.parameterTypes ≠ 0 then .ok s
        else (attachAt s.1 (testName fn submatch) (.function .after fn.func)).map (·, s.2)
    | (.mock, submatch) =>
        if submatch = [] then .ok s
        else
          match findMockTarget units submatch with
          | none        => .ok s
          | some target => (attachAt s.1 (testName fn []) (mockBy target fn)).map (·, s.2)
    | (.param, submatch) =>
        if submatch = [] then .ok s
        else
          match getParamDec fn with
          | none     => .error .noDeclaration
          | some dec => (attachAt s.1 (testName fn []) (parameterOf submatch dec)).map (·, s.2)

/-- `discover_functions`, from `new testnode_t(0)` to the tree before its common part is cut off. -/
def discoverFunctions (units : List (List Reflected)) : Except DiscoveryError (Heap × Nat) :=
  units.flatten.foldlM (discoverFunction units) ([{}], 0)

/-! ### Declarations -/

/-- What a function declares, and the name of the node it is for. -/
def declaration (units : List (List Reflected)) (fn : Reflected) : Option (CString × Attachment) :=
  let sub := (classifyFunction fn.func.name.bytes maxSubmatch).2
  if fn.address = 0 then none
  else
    match (classifyFunction fn.func.name.bytes maxSubmatch).1 with
    | .unknown => none
    | .test =>
        if sub ≠ [] ∧ fn.returnType = tcVoid ∧ fn.parameterTypes = 0 then
          some (testName fn sub, .function .test fn.func)
        else none
    | .before =>
        if fn.returnType = tcSignedInt ∧ fn.parameterTypes = 0 then
          some (testName fn [], .function .before fn.func)
        else none
    | .after =>
        if fn.returnType = tcSignedInt ∧ fn.parameterTypes = 0 then
          some (testName fn [], .function .after fn.func)
        else none
    | .mock =>
        if sub ≠ [] then
          (findMockTarget units sub).map fun target => (testName fn [], mockBy target fn)
        else none
    | .param =>
        if sub ≠ [] then
          (getParamDec fn).map fun dec => (testName fn [], parameterOf sub dec)
        else none

/-- The function has the name of a parameter and does not return one. -/
def NoDeclaration (fn : Reflected) : Prop :=
  fn.address ≠ 0 ∧ (classifyFunction fn.func.name.bytes maxSubmatch).1 = .param ∧
    (classifyFunction fn.func.name.bytes maxSubmatch).2 ≠ [] ∧ getParamDec fn = none

/-- Where discovery dereferences what is not there: there is no parameter, or the name of the node
has no components. -/
def Derails (units : List (List Reflected)) (fn : Reflected) : Prop :=
  NoDeclaration fn ∨ ∃ d, declaration units fn = some d ∧ components d.1 = []

instance (fn : Reflected) : Decidable (NoDeclaration fn) :=
  inferInstanceAs (Decidable (_ ∧ _ ∧ _ ∧ _))

instance (units : List (List Reflected)) (fn : Reflected) : Decidable (Derails units fn) :=
  decidable_of_iff (NoDeclaration fn ∨ ∃ d ∈ declaration units fn, components d.1 = []) Iff.rfl

/-- The declarations in the order of the functions, with the components of their nodes. -/
def declarationsOf (units : List (List Reflected)) (fns : List Reflected) :
    List (List CString × Attachment) :=
  (fns.filterMap (declaration units)).map fun d => (components d.1, d.2)

/-- The declarations of a program. -/
def declarations (units : List (List Reflected)) : List (List CString × Attachment) :=
  declarationsOf units units.flatten

/-- How many tests an attachment makes. -/
def Attachment.tests : Attachment → Nat
  | .function .test _ => 1
  | _                 => 0

/-- How many tests there are. -/
def countTests (decls : List (List CString × Attachment)) : Nat :=
  (decls.map fun d => d.2.tests).sum

/-! ### The tree that is meant -/

/-- The function of a type that is attached. -/
def Attachment.func? (type : FuncType) : Attachment → Option Func
  | .function t f => if t = type then some f else none
  | _             => none

/-- The parameter, if it is one. -/
def Attachment.parameter? : Attachment → Option Parameter
  | .parameter p => some p
  | _            => none

/-- The redirection, if it is one. -/
def Attachment.mock? : Attachment → Option Redirection
  | .mock r => some r
  | _       => none

/-- What is declared for a path, in the order of the functions. -/
def declaredAt (decls : List (List CString × Attachment)) (p : List CString) : List Attachment :=
  (decls.filter fun d => d.1 = p).map Prod.snd

/-- The first function of a type that is declared for a path. -/
def firstAt (decls : List (List CString × Attachment)) (type : FuncType) (p : List CString) :
    Option Func :=
  ((declaredAt decls p).filterMap (Attachment.func? type)).head?

/-- What the node of a path carries. -/
def content (decls : List (List CString × Attachment)) (p : List CString) :
    NodeData × List Redirection :=
  ({  name := p.getLast?
      before := firstAt decls .before p
      test := firstAt decls .test p
      after := firstAt decls .after p
      parameters := (declaredAt decls p).filterMap Attachment.parameter? },
    (declaredAt decls p).filterMap Attachment.mock?)

/-- **The tree of some declarations**: there is a node for every path one is for, and the nodes
above these; each carries what is declared for its own path. -/
structure Discovered (decls : List (List CString × Attachment)) (h : Heap) : Prop where
  built : ∃ calls, Built h calls ∧ calls.map Prod.fst = decls.map Prod.fst
  content : ∀ p c, IsNode h p c → h.carries c = some (content decls p)

/-! ### Attaching -/

section
variable {decls : List (List CString × Attachment)} {p q : List CString} {x : Attachment}

theorem declaredAt_append_self :
    declaredAt (decls ++ [(p, x)]) p = declaredAt decls p ++ [x] := by
  simp [declaredAt]

theorem content_append_of_ne (hne : p ≠ q) : content (decls ++ [(p, x)]) q = content decls q := by
  have hsame : declaredAt (decls ++ [(p, x)]) q = declaredAt decls q := by
    simp [declaredAt, hne]
  simp only [content, firstAt, hsame]

/-- Of the functions of a type the first stays. -/
theorem firstAt_append (type : FuncType) : firstAt (decls ++ [(p, x)]) type p =
    (firstAt decls type p).or (x.func? type) := by
  rw [firstAt, declaredAt_append_self, List.filterMap_append, List.head?_append]
  congr 1
  cases hx : x.func? type <;> simp [hx]

/-- What is attached to a node goes behind what was declared for its path. -/
theorem content_attach {cell : Cell} (h : (cell.data, cell.intercepts) = content decls p) :
    ((x.attach cell).data, (x.attach cell).intercepts) = content (decls ++ [(p, x)]) p := by
  obtain ⟨hdata, hintercepts⟩ := Prod.mk.inj h
  rw [content, firstAt_append, firstAt_append, firstAt_append, declaredAt_append_self,
    List.filterMap_append, List.filterMap_append]
  cases x with
  | mock r => simp [Attachment.attach, hdata, hintercepts, Attachment.func?, Attachment.mock?,
      Attachment.parameter?]
  | parameter q => simp [Attachment.attach, hdata, hintercepts, Attachment.func?,
      Attachment.mock?, Attachment.parameter?]
  | function type f =>
      rw [Attachment.attach, hdata, hintercepts]
      cases type with
      | before | test | after | unknown | mock | param =>
          simp [setFunction, Attachment.func?, Attachment.mock?, Attachment.parameter?]

end

/-! ### New nodes -/

section NewNodes

variable {h h' : Heap} {kids : Nat → List Nat} {a c d : Nat} {p : List CString}

/-- The name of a node is the last component. -/
theorem IsNode.nameOf_eq (hp : IsNode h p c) (hne : p ≠ []) : h.nameOf c = p.getLast? := by
  cases hp with
  | root => exact absurd rfl hne
  | child _ _ _ hname => rw [hname, List.getLast?_append, List.getLast?_singleton, Option.some_or]

/-- A node that `make_path` adds for a component carries its name only. -/
theorem makePart_fresh (hg : Good h kids) (ha : a < h.length) {part : CString}
    (hmake : makePart h a part = .ok (h', c)) (hle : h.length ≤ d) (hlt : d < h'.length) :
    h'.carries d = some ({ name := some part }, []) := by
  obtain ⟨start, hstart, hl⟩ := hg.children a ha
  obtain ⟨cell, hcell, rfl⟩ := Option.map_eq_some_iff.mp hstart
  by_cases hex : ∃ c ∈ kids a, h.nameOf c = some part
  · obtain ⟨e, he, hname⟩ := hex
    obtain ⟨f, -, tailp, hfind, -⟩ :=
      findChild_found hl (hg.named a) he hname (hg.length_kids_le a) (.children a)
    simp only [makePart, hcell, hfind, Except.ok.injEq, Prod.mk.injEq] at hmake
    rw [← hmake.1] at hlt
    exact absurd hlt (Nat.not_lt_of_le hle)
  · have hnew : ∀ c ∈ kids a, h.nameOf c ≠ some part := fun c hc hname => hex ⟨c, hc, hname⟩
    have hfind := findChild_none hl (hg.named a) hnew (hg.length_kids_le a) (.children a)
    have htail : ((kids a).getLast?.map Slot.next).getD (.children a) = tailOf a (kids a) := rfl
    simp only [makePart, hcell, hfind, htail, Except.ok.injEq, Prod.mk.injEq] at hmake
    obtain ⟨rfl, -⟩ := hmake
    rw [length_addChild] at hlt
    obtain rfl : d = h.length := by omega
    rw [Heap.carries, getElem?_addChild_self a part (hg.owner_tailOf ha), Option.map_some]

theorem makeParts_fresh (hg : Good h kids) (hp : IsNode h p a) {child : Option Nat}
    {parts : List CString} (hmake : makeParts h a child parts = .ok (h', c)) (hle : h.length ≤ d)
    (hlt : d < h'.length) : ∃ part, h'.carries d = some ({ name := some part }, []) := by
  induction parts generalizing h kids a p child with
  | nil =>
      cases child with
      | none => cases hmake
      | some e =>
          cases hmake
          exact absurd hlt (Nat.not_lt_of_le hle)
  | cons part parts ih =>
      obtain ⟨h₁, kids₁, c₁, hpart, hg₁, -, hc₁, -⟩ := makePart_spec hg hp part
      simp only [makeParts, hpart] at hmake
      rcases Nat.lt_or_ge d h₁.length with hold | hnew
      · -- added for this component, and left alone by the others
        have hchild : parts = [] → some c₁ = some c₁ := fun _ => rfl
        obtain ⟨h₂, kids₂, c₂, hrest, -, hext, -⟩ := makeParts_spec hg₁ hc₁ (some c₁) hchild
        obtain ⟨rfl, -⟩ := Prod.mk.inj (Except.ok.inj (hrest.symm.trans hmake))
        exact ⟨part, (hext.carries_eq d hold).trans
          (makePart_fresh hg (hp.lt hg) hpart hle hold)⟩
      · exact ih hg₁ hc₁ hmake hnew

end NewNodes

/-! ### One declaration -/

section Attach

variable {decls : List (List CString × Attachment)} {h h' : Heap} {p : List CString} {c : Nat}

theorem declaredAt_eq_nil (hp : p ∉ decls.map Prod.fst) : declaredAt decls p = [] := by
  simp only [declaredAt, List.map_eq_nil_iff, List.filter_eq_nil_iff, decide_eq_true_eq]
  exact fun d hd heq => hp (List.mem_map.mpr ⟨d, hd, heq⟩)

/-- A path nothing is declared for has a node with a name. -/
theorem content_of_notMem (hp : p ∉ decls.map Prod.fst) :
    content decls p = ({ name := p.getLast? }, []) := by
  simp [content, firstAt, declaredAt_eq_nil hp]

/-- `make_path` adds nodes that nothing is declared for. -/
theorem Discovered.makePath (hd : Discovered decls h) {name : CString}
    (hname : components name ≠ []) :
    ∃ h' c, NovaProva.makePath h name = .ok (h', c) ∧ IsNode h' (components name) c ∧
      ∀ p d, IsNode h' p d → h'.carries d = some (NovaProva.content decls p) := by
  obtain ⟨calls, hb, hcalls⟩ := hd.built
  obtain ⟨kids, hg, hreturned, -⟩ := hb.good
  obtain ⟨h', kids', c, hmake, hg', hext, hc, -⟩ :=
    makeParts_spec hg .root none fun hnil => absurd hnil hname
  refine ⟨h', c, hmake, hc, fun p d hp => ?_⟩
  rcases Nat.lt_or_ge d h.length with hold | hnew
  · obtain ⟨q, hq⟩ := IsNode.exists_path hg hold
    obtain rfl := (hext.isNode _ _ hq).path_unique hg' hp
    rw [hext.carries_eq d hold, hd.content q d hq]
  · obtain ⟨part, hpart⟩ := makeParts_fresh hg .root hmake hnew (hp.lt hg')
    have hne : p ≠ [] := by
      rintro rfl
      obtain rfl : d = 0 := hp.node_unique hg' .root
      exact absurd hg.pos (Nat.not_lt_of_le hnew)
    have hlast : p.getLast? = some part := by
      rw [← hp.nameOf_eq hne]
      obtain ⟨cell, hcell, heq⟩ := Option.map_eq_some_iff.mp hpart
      simp [Heap.nameOf, hcell, (Prod.mk.inj heq).1]
    have hnone : p ∉ decls.map Prod.fst := by
      rw [← hcalls]
      intro hmem
      obtain ⟨call, hcall, rfl⟩ := List.mem_map.mp hmem
      have hlt := (hreturned call hcall).lt hg
      rw [(hext.isNode _ _ (hreturned call hcall)).node_unique hg' hp] at hlt
      exact absurd hlt (Nat.not_lt_of_le hnew)
    rw [hpart, content_of_notMem hnone, hlast]

/-- **Step.**  One more declaration. -/
theorem Discovered.attachAt (hd : Discovered decls h) {name : CString}
    (hname : components name ≠ []) (x : Attachment) :
    ∃ h', NovaProva.attachAt h name x = .ok h' ∧
      Discovered (decls ++ [(components name, x)]) h' := by
  obtain ⟨h₁, c, hmake, hc, hcontent⟩ := hd.makePath hname
  obtain ⟨calls, hb, hcalls⟩ := hd.built
  have hb₁ := hb.makePath name hname hmake
  obtain ⟨kids, hg, -, -⟩ := hb₁.good
  have hs := sameLinks_attach x h₁ c
  refine ⟨_, by simp only [NovaProva.attachAt, hmake],
    ⟨_, hb₁.attach (hc.lt hg) x, by simp [hcalls]⟩, fun p d hp => ?_⟩
  have hold := hcontent p d (hs.symm.isNode hp)
  by_cases hdc : d = c
  · subst hdc
    obtain rfl : p = components name := (hs.symm.isNode hp).path_unique hg hc
    obtain ⟨cell, hcell, heq⟩ := Option.map_eq_some_iff.mp hold
    simp only [Heap.carries, List.getElem?_modify_eq, hcell]
    exact congrArg some (content_attach heq)
  · have hne : components name ≠ p := by
      rintro rfl
      exact hdc ((hs.symm.isNode hp).node_unique hg hc)
    rw [content_append_of_ne hne, ← hold]
    simp [Heap.carries, Ne.symm hdc]

end Attach

/-! ### The loop -/

section Loop

variable {units : List (List Reflected)} {fn : Reflected} {s : Heap × Nat}

/-- **What a turn does**: it attaches what the function declares. -/
theorem discoverFunction_eq :
    discoverFunction units s fn =
      match declaration units fn with
      | some d => (attachAt s.1 d.1 d.2).map (·, s.2 + d.2.tests)
      | none   => if NoDeclaration fn then .error .noDeclaration else .ok s := by
  have hfixture : (classifyFunction fn.func.name.bytes maxSubmatch).1 = .before ∨
      (classifyFunction fn.func.name.bytes maxSubmatch).1 = .after →
      (classifyFunction fn.func.name.bytes maxSubmatch).2 = [] :=
    classifyFunction_fixture (by decide)
  have hno : NoDeclaration fn ↔ fn.address ≠ 0 ∧
      (classifyFunction fn.func.name.bytes maxSubmatch).1 = .param ∧
      (classifyFunction fn.func.name.bytes maxSubmatch).2 ≠ [] ∧ getParamDec fn = none := Iff.rfl
  rw [discoverFunction, declaration]
  generalize classifyFunction fn.func.name.bytes maxSubmatch = r at hfixture hno ⊢
  obtain ⟨type, sub⟩ := r
  by_cases hdefined : fn.address = 0
  · simp [hno, hdefined]
  · cases type with
    | unknown => simp [hno, hdefined]
    | test =>
        by_cases hsub : sub = []
        · simp [hno, hdefined, hsub]
        · by_cases hret : fn.returnType = tcVoid
          · by_cases hpar : fn.parameterTypes = 0 <;>
              simp [hno, hdefined, hsub, hret, hpar, Attachment.tests]
          · simp [hno, hdefined, hsub, hret]
    | before =>
        obtain rfl : sub = [] := hfixture (.inl rfl)
        by_cases hret : fn.returnType = tcSignedInt
        · by_cases hpar : fn.parameterTypes = 0 <;>
            simp [hno, hdefined, hret, hpar, Attachment.tests]
        · simp [hno, hdefined, hret]
    | after =>
        obtain rfl : sub = [] := hfixture (.inr rfl)
        by_cases hret : fn.returnType = tcSignedInt
        · by_cases hpar : fn.parameterTypes = 0 <;>
            simp [hno, hdefined, hret, hpar, Attachment.tests]
        · simp [hno, hdefined, hret]
    | mock =>
        by_cases hsub : sub = []
        · simp [hno, hdefined, hsub]
        · cases htarget : findMockTarget units sub <;>
            simp [hno, hdefined, hsub, htarget, mockBy, Attachment.tests]
    | param =>
        by_cases hsub : sub = []
        · simp [hno, hdefined, hsub]
        · cases hdec : getParamDec fn <;>
            simp [hno, hdefined, hsub, hdec, parameterOf, Attachment.tests]

/-- A name without components has no node. -/
theorem attachAt_of_nil {h : Heap} {name : CString} (hname : components name = [])
    (x : Attachment) :
    attachAt h name x = .error (.makePath .null) := by
  simp [attachAt, makePath, makeParts, hname]

/-- A turn with a function that derails it. -/
theorem discoverFunction_derails (hfn : Derails units fn) :
    discoverFunction units s fn = .error .noDeclaration ∨
      discoverFunction units s fn = .error (.makePath .null) := by
  rw [discoverFunction_eq]
  rcases hfn with hno | ⟨d, hd, hname⟩
  · have hnone : declaration units fn = none := by
      obtain ⟨hdefined, htype, hsub, hdec⟩ := hno
      simp [declaration, hdefined, htype, hdec]
    rw [hnone]
    exact .inl (if_pos hno)
  · rw [hd]
    simp only [attachAt_of_nil hname]
    exact .inr rfl

/-- Any other turn. -/
theorem Discovered.turn {decls : List (List CString × Attachment)} {h : Heap}
    (hd : Discovered decls h) (hfn : ¬ Derails units fn) (n : Nat) :
    ∃ h', discoverFunction units (h, n) fn =
        .ok (h', n + ((declaration units fn).map fun d => d.2.tests).getD 0) ∧
      Discovered (decls ++ (declaration units fn).toList.map fun d => (components d.1, d.2))
        h' := by
  rw [Derails, not_or, not_exists] at hfn
  rw [discoverFunction_eq]
  cases hdecl : declaration units fn with
  | none => exact ⟨h, if_neg hfn.1, by simpa using hd⟩
  | some d =>
      obtain ⟨h', hattach, hd'⟩ := hd.attachAt (fun hnil => hfn.2 d ⟨hdecl, hnil⟩) d.2
      exact ⟨h', by simp only [hattach]; rfl, by simpa using hd'⟩

end Loop

/-- **Run.**  The loop from any tree on. -/
theorem Discovered.loop (units : List (List Reflected)) (fns : List Reflected)
    {decls : List (List CString × Attachment)} {h : Heap} (hd : Discovered decls h) (n : Nat) :
    ((∀ fn ∈ fns, ¬ Derails units fn) ∧
      ∃ h', fns.foldlM (discoverFunction units) (h, n) =
          .ok (h', n + countTests (declarationsOf units fns)) ∧
        Discovered (decls ++ declarationsOf units fns) h') ∨
    ((∃ fn ∈ fns, Derails units fn) ∧
      (fns.foldlM (discoverFunction units) (h, n) = .error .noDeclaration ∨
        fns.foldlM (discoverFunction units) (h, n) = .error (.makePath .null))) := by
  induction fns generalizing decls h n with
  | nil => exact .inl ⟨by simp, h, rfl, by simpa [declarationsOf] using hd⟩
  | cons fn fns ih =>
      by_cases hfn : Derails units fn
      · have hstop : ∀ e, discoverFunction units (h, n) fn = .error e →
            (fn :: fns).foldlM (discoverFunction units) (h, n) = .error e := by
          intro e he
          rw [List.foldlM_cons, he]
          rfl
        exact .inr ⟨⟨fn, List.mem_cons_self, hfn⟩,
          (discoverFunction_derails hfn).imp (hstop _) (hstop _)⟩
      · obtain ⟨h₁, hturn, hd₁⟩ := hd.turn hfn n
        have hrest : (fn :: fns).foldlM (discoverFunction units) (h, n) =
            fns.foldlM (discoverFunction units)
              (h₁, n + ((declaration units fn).map fun d => d.2.tests).getD 0) := by
          rw [List.foldlM_cons, hturn]
          rfl
        rw [hrest]
        rcases ih hd₁ (n + ((declaration units fn).map fun d => d.2.tests).getD 0) with
          ⟨hall, h₂, hloop, hd₂⟩ | ⟨⟨fn', hmem, hfn'⟩, hloop⟩
        · refine .inl ⟨List.forall_mem_cons.mpr ⟨hfn, hall⟩, h₂, ?_, ?_⟩
          · rw [hloop]
            cases hdecl : declaration units fn <;>
              simp [declarationsOf, countTests, hdecl, Nat.add_assoc]
          · cases hdecl : declaration units fn <;>
              simpa [declarationsOf, hdecl] using hd₂
        · exact .inr ⟨⟨fn', List.mem_cons_of_mem _ hmem, hfn'⟩, hloop⟩

theorem discovered_root : Discovered [] [{}] := by
  refine ⟨⟨[], .root, rfl⟩, fun p c hp => ?_⟩
  rcases hp.inv good_root with ⟨rfl, rfl⟩ | ⟨q, a, name, -, -, hc, -⟩
  · rfl
  · exact absurd hc List.not_mem_nil

/-- The nodes are those something is declared for, and those above them. -/
theorem Discovered.isNode_iff {decls : List (List CString × Attachment)} {h : Heap}
    (hd : Discovered decls h) {p : List CString} (hne : p ≠ []) :
    (∃ c, IsNode h p c) ↔ ∃ d ∈ decls, p <+: d.1 := by
  obtain ⟨calls, hb, hcalls⟩ := hd.built
  obtain ⟨kids, hg, hreturned, hall⟩ := hb.good
  have hmem : (∃ d ∈ decls, p <+: d.1) ↔ ∃ q ∈ calls, p <+: q.1 := by
    have hiff : ∀ {α : Type} (xs : List (List CString × α)),
        (∃ x ∈ xs, p <+: x.1) ↔ ∃ q ∈ xs.map Prod.fst, p <+: q := by simp
    rw [hiff, hiff, hcalls]
  rw [hmem]
  constructor
  · rintro ⟨c, hp⟩
    exact (hall p c hp).resolve_left hne
  · rintro ⟨q, hq, hpre⟩
    exact (hreturned q hq).take hpre

/-- **What discovery builds.**  The loop over the functions ends exactly if none of them derails it,
and its assertion never fires.  The tree then has the nodes the declarations are for and those
above them, each with what is declared for its own path in the order of the functions, and of the
functions of a type the first; and every test is counted. -/
theorem discoverFunctions_tree (units : List (List Reflected)) :
    ((∃ r, discoverFunctions units = .ok r) ↔ ∀ fn ∈ units.flatten, ¬ Derails units fn) ∧
      discoverFunctions units ≠ .error .assertion ∧
      ∀ h n, discoverFunctions units = .ok (h, n) →
        n = countTests (declarations units) ∧
          (∀ p, p ≠ [] → ((∃ c, IsNode h p c) ↔ ∃ d ∈ declarations units, p <+: d.1)) ∧
          ∀ p c, IsNode h p c → h.carries c = some (content (declarations units) p) := by
  have hrun := discovered_root.loop units units.flatten 0
  rw [Nat.zero_add, List.nil_append] at hrun
  rcases hrun with ⟨hall, h, hloop, hd⟩ | ⟨⟨fn, hfn, hderails⟩, hloop⟩
  · rw [discoverFunctions, hloop]
    refine ⟨iff_of_true ⟨_, rfl⟩ hall, nofun, ?_⟩
    rintro h' n heq
    cases heq
    exact ⟨rfl, fun p hne => hd.isNode_iff hne, hd.content⟩
  · have hstop : ∀ r, discoverFunctions units ≠ .ok r := by
      intro r hr
      rw [discoverFunctions] at hr
      rcases hloop with hloop | hloop <;> rw [hloop] at hr <;> cases hr
    refine ⟨iff_of_false (fun ⟨r, hr⟩ => hstop r hr) fun hall => hall fn hfn hderails, ?_,
      fun h n hr => absurd hr (hstop (h, n))⟩
    rw [discoverFunctions]
    rcases hloop with hloop | hloop <;> rw [hloop] <;> nofun

end NovaProva
