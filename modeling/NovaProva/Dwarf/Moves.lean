import NovaProva.Dwarf.Preorder
import NovaProva.Dwarf.Units

/-!
# Dwarf — From sibling to sibling

`walker_t::move_next`, `move_down` and `move_to`, and the nested loops over siblings and children
that `dump_structs`, `describe_function_parameters` and `recursive_dump` run on one walker.

`move_next` goes to where the entry's `DW_AT_sibling` points, if it has one, and otherwise reads on
until it is back at the entry's level.  After a jump the walker's level is 0, whatever the depth of
the entry.  What it goes by is the entry that was read last, which after a list of children is the
last of those below it; that one has no next sibling, so that no jump is taken from there.
-/

namespace NovaProva.Dwarf

open Walker

/-- `DW_AT_sibling`. -/
def dwAtSibling : Nat := 0x01

/-- `partial_setup` with an offset and a level. -/
def Entry.partialSetupAt (e : Entry) (off level : Nat) : Entry :=
  { e with offset := off % 2 ^ 32, level := level, abbrev? := none }

/-- `reference_t::resolve`: the compile unit and the offset in it; `none` for a null compile
unit. -/
def resolveReference (compileUnits : List CompileUnit) (ref : Reference) :
    Option (CompileUnit × Nat) :=
  match ref.resolver with
  | .null              => none
  | .compileUnit index => (compileUnits.find? (·.index = index)).map fun cu => (cu, ref.offset)
  | .linkObject _      => resolveLinkObjectReference compileUnits ref

/-- Why a move does not return. -/
inductive MoveError where
  | fatal (f : Fatal)
  /-- the assertion of `seek` -/
  | noCompileUnit
  /-- `has_children` of an entry without an abbreviation -/
  | nullAbbrev
  | outOfFuel
  deriving DecidableEq

namespace Walker

variable (cus : List CompileUnit)

/-- `walker_t::seek`: to the start of an entry, at level 0. -/
def seek (ref : Reference) (w : Walker) : Option Walker :=
  (resolveReference cus ref).map fun res =>
    { w with
      compileUnit := res.1
      reader := (Read.seek res.2 res.1.getContents).2
      level := 0 }

/-- `move_to`: whether there is an entry. -/
def moveTo (ref : Reference) (w : Walker) : Except MoveError (Bool × Walker) :=
  match w.seek cus ref with
  | none    => .error .noCompileUnit
  | some w' =>
      match w'.readEntry with
      | .error f        => .error (.fatal f)
      | .ok (.ok, w'')  => .ok (true, w'')
      | .ok (_, w'')    => .ok (false, w'')

/-- The loop of `move_next`.  The fuel bounds the calls of `read_entry`. -/
def moveNextLoop (target : Nat) : Nat → Walker → Except MoveError (Bool × Walker)
  | 0,     _ => .error .outOfFuel
  | n + 1, w =>
      if w.level < target then
        .ok (false, { w with entry := w.entry.partialSetupAt w.entry.offset (target - 1) })
      else
        match w.readEntry with
        | .error f       => .error (.fatal f)
        | .ok (.eof, w') => .ok (false, w')
        | .ok (.ok, w')  =>
            if w'.entry.level = target then .ok (true, w') else moveNextLoop target n w'
        | .ok (_, w')    => moveNextLoop target n w'

/-- `move_next`: whether there is another sibling. -/
def moveNext (n : Nat) (w : Walker) : Except MoveError (Bool × Walker) :=
  match w.entry.getAttribute dwAtSibling with
  | some (.ref ref) => moveTo cus ref w
  | _               => moveNextLoop w.entry.level n w

/-- `move_down`: whether there is a child. -/
def moveDown (w : Walker) : Except MoveError (Bool × Walker) :=
  match w.entry.abbrev? with
  | none   => .error .nullAbbrev
  | some a =>
      if a.children = 0 then .ok (false, w)
      else
        match w.readEntry with
        | .error f       => .error (.fatal f)
        | .ok (.ok, w')  => .ok (true, w')
        | .ok (_, w')    => .ok (false, w')

/-- The loop `for (; e; e = w.move_next())` from the entry the walker is at, if `found`, with the
same loop from `move_down` for each entry to descend into: the entries in the order they are
visited. -/
def visitFrom (descend : EntryView → Bool) :
    Nat → Bool → Walker → Except MoveError (List EntryView × Walker)
  | 0,     _,     _ => .error .outOfFuel
  | _ + 1, false, w => .ok ([], w)
  | n + 1, true,  w => do
      let below : Except MoveError (List EntryView × Walker) :=
        if descend w.view then do
          let down ← moveDown w
          visitFrom descend n down.1 down.2
        else .ok ([], w)
      let inner ← below
      let next ← moveNext cus n inner.2
      let rest ← visitFrom descend n next.1 next.2
      return (w.view :: (inner.1 ++ rest.1), rest.2)

/-- The loop `for (e = w.move_down(); e; e = w.move_next())`. -/
def visitBelow (descend : EntryView → Bool) (n : Nat) (w : Walker) :
    Except MoveError (List EntryView × Walker) := do
  let down ← moveDown w
  visitFrom cus descend n down.1 down.2

end Walker

/-! ### The tree -/

section
variable (fmt : Format) (lo : LinkObject) (index : Nat) (table : List AbbrevDecl)

/-- How many bytes an entry has with its children. -/
def Die.extent (d : Die) (children : Dies) : Nat :=
  (d.encode fmt ++ if d.hasChildren table then children.encode fmt table ++ [0] else []).length

/-- The entries of a list of siblings, and of their children where it is descended into them, in
preorder. -/
def Dies.visited (descend : EntryView → Bool) : Nat → Nat → Dies → List EntryView
  | _,   _,     .nil => []
  | off, level, .cons d children siblings =>
      let v := d.view lo index table off level
      v :: ((if descend v then
          Dies.visited descend (off + (d.encode fmt).length) (level + 1) children else []) ++
        Dies.visited descend (off + d.extent fmt table children) level siblings)

/-- Every `DW_AT_sibling` is a reference to the entry's next sibling in the unit `cu`. -/
def Dies.Linked (cus : List CompileUnit) (cu : CompileUnit) : Nat → Dies → Prop
  | _,   .nil => True
  | off, .cons d children siblings =>
      (∀ v, (d.view lo index table off 0).getAttribute dwAtSibling = some v →
        siblings ≠ .nil ∧ ∃ ref, v = .ref ref ∧
          resolveReference cus ref = some (cu, off + d.extent fmt table children)) ∧
      Dies.Linked cus cu (off + (d.encode fmt).length) children ∧
      Dies.Linked cus cu (off + d.extent fmt table children) siblings

/-- Every entry visited that has a `DW_AT_sibling` is descended into and has a child. -/
def Dies.Descended (descend : EntryView → Bool) : Nat → Nat → Dies → Prop
  | _,   _,     .nil => True
  | off, level, .cons d children siblings =>
      let v := d.view lo index table off level
      ((v.getAttribute dwAtSibling).isSome → descend v = true ∧ children ≠ .nil) ∧
      (descend v = true →
        Dies.Descended descend (off + (d.encode fmt).length) (level + 1) children) ∧
      Dies.Descended descend (off + d.extent fmt table children) level siblings

end

/-! ### Enough fuel -/

namespace Walker

variable {cus : List CompileUnit} {descend : EntryView → Bool}

/-- One more step of fuel does not change the loop of `move_next`. -/
theorem moveNextLoop_succ {target n : Nat} {w : Walker} {res : Bool × Walker}
    (h : moveNextLoop target n w = .ok res) : moveNextLoop target (n + 1) w = .ok res := by
  induction n generalizing w with
  | zero => cases h
  | succ n ih =>
      rw [moveNextLoop] at h ⊢
      split
      case isTrue hlt =>
        rwa [if_pos hlt] at h
      case isFalse hlt =>
        rw [if_neg hlt] at h
        cases hread : w.readEntry with
        | error f =>
            rw [hread] at h
            cases h
        | ok p =>
            obtain ⟨r, w'⟩ := p
            rw [hread] at h
            cases r with
            | eof => exact h
            | ok =>
                dsimp only at h ⊢
                split
                case isTrue hlevel =>
                  rwa [if_pos hlevel] at h
                case isFalse hlevel =>
                  rw [if_neg hlevel] at h
                  exact ih h
            | eol => exact ih h
            | filtered => exact ih h

/-- One more step of fuel does not change `move_next`. -/
theorem moveNext_succ {n : Nat} {w : Walker} {res : Bool × Walker}
    (h : moveNext cus n w = .ok res) : moveNext cus (n + 1) w = .ok res := by
  unfold moveNext at h ⊢
  split
  next ref hsib =>
    rwa [hsib] at h
  next hsib =>
    split at h
    next ref hsib' =>
      exact absurd hsib' (hsib ref)
    · exact moveNextLoop_succ h

/-- What a computation that returns did before. -/
theorem bind_eq_ok {α β : Type} {x : Except MoveError α} {f : α → Except MoveError β} {b : β}
    (h : x >>= f = .ok b) : ∃ a, x = .ok a ∧ f a = .ok b := by
  cases x with
  | error e => cases h
  | ok a => exact ⟨a, rfl, h⟩

/-- What one round of the loop does, if all of it returns. -/
theorem visitFrom_eq_ok {n : Nat} {w w' : Walker} {vs : List EntryView}
    (h : visitFrom cus descend (n + 1) true w = .ok (vs, w')) :
    ∃ inner w₁ found w₂ rest,
      (descend w.view = true ∧ visitBelow cus descend n w = .ok (inner, w₁) ∨
        descend w.view = false ∧ inner = [] ∧ w₁ = w) ∧
      moveNext cus n w₁ = .ok (found, w₂) ∧
      visitFrom cus descend n found w₂ = .ok (rest, w') ∧ vs = w.view :: (inner ++ rest) := by
  rw [visitFrom] at h
  obtain ⟨⟨inner, w₁⟩, hinner, h⟩ := bind_eq_ok h
  obtain ⟨⟨found, w₂⟩, hnext, h⟩ := bind_eq_ok h
  obtain ⟨⟨rest, w₃⟩, hrest, h⟩ := bind_eq_ok h
  cases h
  refine ⟨inner, w₁, found, w₂, rest, ?_, hnext, hrest, rfl⟩
  split at hinner
  case isTrue hdescend =>
    exact .inl ⟨hdescend, hinner⟩
  case isFalse hdescend =>
    cases hinner
    exact .inr ⟨Bool.eq_false_iff.mpr hdescend, rfl, rfl⟩

/-- A round over an entry that is descended into. -/
theorem visitFrom_of_descend {n : Nat} {w w₁ w₂ w' : Walker} {inner rest : List EntryView}
    {found : Bool} (hdescend : descend w.view = true)
    (hinner : visitBelow cus descend n w = .ok (inner, w₁))
    (hnext : moveNext cus n w₁ = .ok (found, w₂))
    (hrest : visitFrom cus descend n found w₂ = .ok (rest, w')) :
    visitFrom cus descend (n + 1) true w = .ok (w.view :: (inner ++ rest), w') := by
  have hinner' : (moveDown w >>= fun p => visitFrom cus descend n p.1 p.2) = .ok (inner, w₁) :=
    hinner
  rw [visitFrom, if_pos hdescend]
  change ((moveDown w >>= fun p => visitFrom cus descend n p.1 p.2) >>= _) = _
  rw [hinner']
  change (moveNext cus n w₁ >>= _) = _
  rw [hnext]
  change (visitFrom cus descend n found w₂ >>= _) = _
  rw [hrest]
  rfl

/-- A round over an entry that is not descended into. -/
theorem visitFrom_of_not_descend {n : Nat} {w w₂ w' : Walker} {rest : List EntryView}
    {found : Bool} (hdescend : descend w.view = false) (hnext : moveNext cus n w = .ok (found, w₂))
    (hrest : visitFrom cus descend n found w₂ = .ok (rest, w')) :
    visitFrom cus descend (n + 1) true w = .ok (w.view :: rest, w') := by
  rw [visitFrom, if_neg (by rw [hdescend]; exact Bool.false_ne_true)]
  change (moveNext cus n w >>= _) = _
  rw [hnext]
  change (visitFrom cus descend n found w₂ >>= _) = _
  rw [hrest]
  rfl

/-- More fuel does not change what was visited. -/
theorem visitFrom_succ {n : Nat} {found : Bool} {w : Walker} {res : List EntryView × Walker}
    (h : visitFrom cus descend n found w = .ok res) :
    visitFrom cus descend (n + 1) found w = .ok res := by
  induction n generalizing found w res with
  | zero => cases h
  | succ n ih =>
      cases found with
      | false => exact h
      | true =>
          obtain ⟨vs, w'⟩ := res
          obtain ⟨inner, w₁, found, w₂, rest, hinner, hnext, hrest, rfl⟩ := visitFrom_eq_ok h
          rcases hinner with ⟨hdescend, hbelow⟩ | ⟨hdescend, rfl, rfl⟩
          · obtain ⟨⟨f, u⟩, hdown, hfrom⟩ := bind_eq_ok hbelow
            have hbelow' : visitBelow cus descend (n + 1) w = .ok (inner, w₁) := by
              rw [visitBelow, hdown]
              exact ih hfrom
            exact visitFrom_of_descend hdescend hbelow' (moveNext_succ hnext) (ih hrest)
          · exact visitFrom_of_not_descend hdescend (moveNext_succ hnext) (ih hrest)

/-- More fuel does not change `move_next`. -/
theorem moveNext_mono {n m : Nat} {w : Walker} {res : Bool × Walker}
    (h : moveNext cus n w = .ok res) (hnm : n ≤ m) : moveNext cus m w = .ok res := by
  induction hnm with
  | refl => exact h
  | step _ ih => exact moveNext_succ ih

/-- More fuel does not change a loop over siblings. -/
theorem visitFrom_mono {n m : Nat} {found : Bool} {w : Walker} {res : List EntryView × Walker}
    (h : visitFrom cus descend n found w = .ok res) (hnm : n ≤ m) :
    visitFrom cus descend m found w = .ok res := by
  induction hnm with
  | refl => exact h
  | step _ ih => exact visitFrom_succ ih

/-- More fuel does not change what is visited below an entry. -/
theorem visitBelow_mono {n m : Nat} {w : Walker} {res : List EntryView × Walker}
    (h : visitBelow cus descend n w = .ok res) (hnm : n ≤ m) :
    visitBelow cus descend m w = .ok res := by
  obtain ⟨⟨f, u⟩, hdown, hfrom⟩ := bind_eq_ok h
  rw [visitBelow, hdown]
  exact visitFrom_mono hfrom hnm

/-- Two runs that return, return the same. -/
theorem moveNext_unique {n m : Nat} {w : Walker} {res res' : Bool × Walker}
    (h : moveNext cus n w = .ok res) (h' : moveNext cus m w = .ok res') : res = res' :=
  Except.ok.inj ((moveNext_mono h (Nat.le_max_left n m)).symm.trans
    (moveNext_mono h' (Nat.le_max_right n m)))

/-- There is one result of visiting what is below an entry. -/
theorem visitBelow_unique {n m : Nat} {w : Walker} {res res' : List EntryView × Walker}
    (h : visitBelow cus descend n w = .ok res) (h' : visitBelow cus descend m w = .ok res') :
    res = res' :=
  Except.ok.inj ((visitBelow_mono h (Nat.le_max_left n m)).symm.trans
    (visitBelow_mono h' (Nat.le_max_right n m)))

end Walker

/-! ### Where a walker is -/

section
variable {fmt : Format} {lo : LinkObject} {index : Nat} {table : List AbbrevDecl}
  {cus : List CompileUnit} {cu : CompileUnit} {descend : EntryView → Bool}

/-- The walker reads the entries of `cu`. -/
structure Home (cu : CompileUnit) (w : Walker) : Prop where
  compileUnit : w.compileUnit = cu
  base : w.reader.base = cu.getContents.base
  bytes : w.reader.bytes = cu.getContents.bytes
  is64 : w.reader.is64 = cu.getContents.is64

theorem Home.setP {w : Walker} (h : Home cu w) (q : Nat) (e : Entry) (level : Nat) :
    Home cu { w with reader := w.reader.setP q, entry := e, level := level } :=
  ⟨h.compileUnit, h.base, h.bytes, h.is64⟩

/-- A new walker is in its unit. -/
theorem home_ofUnit (cu : CompileUnit) : Home cu (Walker.ofUnit cu) := ⟨rfl, rfl, rfl, rfl⟩

/-- A walker starts without a filter. -/
theorem Walker.setFilterTag_zero (cu : CompileUnit) :
    (Walker.ofUnit cu).setFilterTag 0 = Walker.ofUnit cu := rfl

variable (fmt lo index table cu) in
/-- The walker has read the entry `d` at the offset `off` and the level `level`, and has `s` before
it. -/
structure AtEntry (w : Walker) (d : Die) (off level : Nat) (s : List UInt8) : Prop where
  view : w.view = d.view lo index table off level
  abbrev? : ∃ a, w.entry.abbrev? = some a ∧ d.Valid fmt lo table a
  home : Home cu w
  ready : Ready fmt lo index table 0 w (off + (d.encode fmt).length)
    (if d.hasChildren table then level + 1 else level) s

variable (fmt lo index table cu) in
/-- The walker is behind the children of an entry of the level `level`, or behind the entry itself,
and nothing tells it to jump. -/
structure Behind (w : Walker) (depth off : Nat) (s : List UInt8) : Prop where
  level : w.entry.level = depth
  sibling : w.entry.getAttribute dwAtSibling = none
  home : Home cu w
  ready : Ready fmt lo index table 0 w off depth s

variable (fmt table) in
/-- The bytes of an entry's children. -/
def Die.below (d : Die) (children : Dies) : List UInt8 :=
  if d.hasChildren table then children.encode fmt table ++ [0] else []

/-- An entry with all that is below it. -/
theorem Die.extent_eq (d : Die) (children : Dies) :
    d.extent fmt table children = (d.encode fmt).length + (d.below fmt table children).length := by
  rw [Die.extent, Die.below, List.length_append]

/-- The bytes from the first of some siblings on. -/
theorem Dies.encode_cons (d : Die) (children siblings : Dies) (s : List UInt8) :
    (Dies.cons d children siblings).encode fmt table ++ s =
      d.encode fmt ++ (d.below fmt table children ++ (siblings.encode fmt table ++ s)) := by
  rw [Dies.encode, Die.below, List.append_assoc, List.append_assoc]

/-- How long siblings are. -/
theorem Dies.length_encode_cons (d : Die) (children siblings : Dies) :
    ((Dies.cons d children siblings).encode fmt table).length =
      d.extent fmt table children + (siblings.encode fmt table).length := by
  rw [Dies.encode, Die.extent, ← List.append_assoc, List.length_append]

variable (fmt lo index table cu) in
/-- What `move_down` and `move_next` return in a list of siblings of the level `level + 1`: the
first entry, or that there is none, when the walker is behind the list. -/
def Arrived (found : Bool) (w : Walker) (ds : Dies) (level off : Nat) (s : List UInt8) : Prop :=
  match ds with
  | .nil => found = false ∧ Behind fmt lo index table cu w level (off + 1) s
  | .cons d children siblings => found = true ∧
      AtEntry fmt lo index table cu w d off (level + 1)
        (d.below fmt table children ++ (siblings.encode fmt table ++ ([0] ++ s)))

/-- The attributes of an entry do not depend on where it is. -/
theorem AtEntry.getAttribute {w : Walker} {d : Die} {off level : Nat} {s : List UInt8}
    (h : AtEntry fmt lo index table cu w d off level s) (off' level' name : Nat) :
    w.entry.getAttribute name = (d.view lo index table off' level').getAttribute name :=
  congrArg (fun v => v.getAttribute name) h.view

theorem AtEntry.level {w : Walker} {d : Die} {off level : Nat} {s : List UInt8}
    (h : AtEntry fmt lo index table cu w d off level s) : w.entry.level = level :=
  congrArg EntryView.level h.view

/-- Reading the first entry of a list. -/
theorem readEntry_atEntry (htable : ∀ d ∈ table, d.Valid) {w : Walker} {d : Die} {a : Abbrev}
    {off level : Nat} {s : List UInt8} (hd : d.Valid fmt lo table a) (hhome : Home cu w)
    (h : Ready fmt lo index table 0 w off level (d.encode fmt ++ s)) (hs : 1 ≤ s.length) :
    ∃ w', w.readEntry = .ok (.ok, w') ∧ AtEntry fmt lo index table cu w' d off level s := by
  obtain ⟨w', hread, hview, habbrev, hreader, hready⟩ := readEntry_read htable hd.spelled h
    (blocksInside_of_pos _ hs) (fun hne => hne.1 rfl)
  have hhas := hd.hasChildren_eq
  refine ⟨w', hread, hview.trans (hd.readView off level), ⟨a, habbrev, hd⟩, ⟨?_, ?_, ?_, ?_⟩, ?_⟩
  · exact (readEntry_compileUnit hread).trans hhome.compileUnit
  · rw [hreader]
    exact hhome.base
  · rw [hreader]
    exact hhome.bytes
  · rw [hreader]
    exact hhome.is64
  · rw [hhas]
    simpa using hready

/-- Reading the null entry at the end of a list. -/
theorem Ready.behind_null {w : Walker} {level off : Nat} {s : List UInt8}
    (h : Ready fmt lo index table 0 w off (level + 1) ([0] ++ s)) :
    Ready fmt lo index table 0
      { w with reader := w.reader.setP (w.reader.p + 1), level := level } (off + 1) level s := by
  have hroom := h.room
  rw [List.length_append] at hroom
  exact h.move h.bounded (by omega) level

/-! ### Over what is skipped -/

/-- The loop of `move_next` comes from `w` to `w'`. -/
def SkipsTo (target : Nat) (w w' : Walker) : Prop :=
  ∃ k, ∀ n, moveNextLoop target (n + k) w = moveNextLoop target n w'

theorem SkipsTo.refl (target : Nat) (w : Walker) : SkipsTo target w w := ⟨0, fun _ => rfl⟩

/-- What is skipped in two steps is skipped. -/
theorem SkipsTo.trans {target : Nat} {w w₁ w₂ : Walker} (h : SkipsTo target w w₁)
    (h₁ : SkipsTo target w₁ w₂) : SkipsTo target w w₂ := by
  obtain ⟨k, hk⟩ := h
  obtain ⟨j, hj⟩ := h₁
  refine ⟨j + k, fun n => ?_⟩
  rw [← Nat.add_assoc, hk, hj]

/-- An entry of another level. -/
theorem SkipsTo.entry {target : Nat} {w w' : Walker} (hlevel : target ≤ w.level)
    (hread : w.readEntry = .ok (.ok, w')) (hne : w'.entry.level ≠ target) :
    SkipsTo target w w' := by
  refine ⟨1, fun n => ?_⟩
  rw [moveNextLoop, if_neg (by omega), hread]
  dsimp only
  rw [if_neg hne]

/-- A null entry is skipped. -/
theorem SkipsTo.null {target : Nat} {w w' : Walker} (hlevel : target ≤ w.level)
    (hread : w.readEntry = .ok (.eol, w')) : SkipsTo target w w' := by
  refine ⟨1, fun n => ?_⟩
  rw [moveNextLoop, if_neg (by omega), hread]

variable (fmt lo index table cus cu) in
/-- From before the list `ds` the loop of `move_next` comes behind it.  The last entry it reads has
no next sibling. -/
def Skipped (target : Nat) (ds : Dies) (level : Nat) : Prop :=
  ∀ ⦃w : Walker⦄ ⦃off : Nat⦄ ⦃s : List UInt8⦄, ds.Linked fmt lo index table cus cu off →
    Home cu w → Ready fmt lo index table 0 w off level (ds.encode fmt table ++ s) →
    1 ≤ s.length →
      ∃ w', SkipsTo target w w' ∧ Home cu w' ∧
        Ready fmt lo index table 0 w' (off + (ds.encode fmt table).length) level s ∧
        (ds = .nil → w' = w) ∧ (ds ≠ .nil → w'.entry.getAttribute dwAtSibling = none)

/-- From an entry the loop comes behind its children. -/
theorem Skipped.below {target : Nat} {children : Dies} {level : Nat}
    (hskipped : Skipped fmt lo index table cus cu target children (level + 1)) {w : Walker}
    {d : Die} {off : Nat} {s : List UInt8}
    (hnil : d.hasChildren table = false → children = .nil)
    (hlinked : children.Linked fmt lo index table cus cu (off + (d.encode fmt).length))
    (hat : AtEntry fmt lo index table cu w d off level (d.below fmt table children ++ s))
    (hlevel : target ≤ level) :
    ∃ w', SkipsTo target w w' ∧ Home cu w' ∧
      Ready fmt lo index table 0 w' (off + d.extent fmt table children) level s ∧
      (children = .nil → w'.entry = w.entry) ∧
      (children ≠ .nil → w'.entry.getAttribute dwAtSibling = none) := by
  have hready := hat.ready
  rw [Die.extent_eq, ← Nat.add_assoc]
  unfold Die.below at hready ⊢
  cases hhas : d.hasChildren table with
  | false =>
      rw [hhas, if_neg Bool.false_ne_true, if_neg Bool.false_ne_true, List.nil_append] at hready
      rw [if_neg Bool.false_ne_true, List.length_nil, Nat.add_zero]
      exact ⟨w, .refl _ _, hat.home, hready, fun _ => rfl, fun hne => absurd (hnil hhas) hne⟩
  | true =>
      rw [hhas, if_pos rfl, if_pos rfl, List.append_assoc] at hready
      obtain ⟨w₁, hskip, hhome, hready₁, hnil₁, hsib₁⟩ :=
        hskipped hlinked hat.home hready (by simp)
      have hnull := readEntry_zero hready₁
      refine ⟨_, hskip.trans (.null (by rw [hready₁.level]; omega) hnull), hhome.setP _ _ _, ?_,
        ?_, ?_⟩
      · rw [if_pos rfl, List.length_append, ← Nat.add_assoc]
        exact hready₁.behind_null
      · intro hc
        rw [hnil₁ hc]
      · intro hc
        exact hsib₁ hc

/-- **A list of deeper entries is skipped.** -/
theorem skipped_dies (htable : ∀ d ∈ table, d.Valid) {target : Nat} (ds : Dies)
    (hds : ds.Valid fmt lo table) {level : Nat} (hlevel : target < level) :
    Skipped fmt lo index table cus cu target ds level := by
  induction ds generalizing level with
  | nil =>
      intro w off s _ hhome h _
      exact ⟨w, .refl _ _, hhome, h, fun _ => rfl, fun hne => absurd rfl hne⟩
  | cons d children siblings ihc ihs =>
      obtain ⟨⟨a, hd⟩, hnil, hchildren, hsiblings⟩ := hds
      intro w off s hlinked hhome h hs
      obtain ⟨hsib, hlc, hls⟩ := hlinked
      rw [Dies.encode_cons] at h
      have hlen : 1 ≤ (siblings.encode fmt table ++ s).length := by
        rw [List.length_append]
        omega
      obtain ⟨w₁, hread, hat⟩ := readEntry_atEntry htable hd hhome h
        (hlen.trans (by simp))
      have hskip₁ : SkipsTo target w w₁ :=
        .entry (by rw [h.level]; omega) hread (by rw [hat.level]; omega)
      obtain ⟨w₂, hskip₂, hhome₂, hready₂, hsame, hlast⟩ :=
        (ihc hchildren (Nat.lt_succ_of_lt hlevel)).below hnil hlc hat (Nat.le_of_lt hlevel)
      obtain ⟨w₃, hskip₃, hhome₃, hready₃, hnil₃, hsib₃⟩ :=
        ihs hsiblings hlevel hls hhome₂ hready₂ hs
      refine ⟨w₃, hskip₁.trans (hskip₂.trans hskip₃), hhome₃, ?_, fun hne => (nomatch hne), ?_⟩
      · rw [Dies.length_encode_cons, ← Nat.add_assoc]
        exact hready₃
      · intro _
        by_cases hsnil : siblings = .nil
        · rw [hnil₃ hsnil]
          by_cases hcnil : children = .nil
          · rw [hsame hcnil, hat.getAttribute off 0]
            -- the last of the list has no next sibling
            cases hattr : (d.view lo index table off 0).getAttribute dwAtSibling with
            | none => rfl
            | some v => exact absurd hsnil (hsib v hattr).1
          · exact hlast hcnil
        · exact hsib₃ hsnil

/-! ### The moves -/

/-- **`move_next` by levels** finds the next sibling or the end of the list. -/
theorem moveNext_arrives (htable : ∀ d ∈ table, d.Valid) {w w₁ : Walker} {siblings : Dies}
    {level off : Nat} {s : List UInt8} (hsiblings : siblings.Valid fmt lo table)
    (hlevel : w.entry.level = level + 1) (hsib : w.entry.getAttribute dwAtSibling = none)
    (hskip : SkipsTo (level + 1) w w₁) (hhome : Home cu w₁)
    (hready : Ready fmt lo index table 0 w₁ off (level + 1)
      (siblings.encode fmt table ++ ([0] ++ s)))
    (hsib₁ : w₁.entry.getAttribute dwAtSibling = none) :
    ∃ n found w', moveNext cus n w = .ok (found, w') ∧
      Arrived fmt lo index table cu found w' siblings level off s := by
  obtain ⟨k, hk⟩ := hskip
  have hnext : ∀ n, moveNext cus n w = moveNextLoop (level + 1) n w := by
    intro n
    rw [moveNext, hsib, hlevel]
  have hnot : ¬ w₁.level < level + 1 := by
    rw [hready.level]
    omega
  cases siblings with
  | nil =>
      rw [Dies.encode, List.nil_append] at hready
      have hnull := readEntry_zero hready
      refine ⟨2 + k, false, { w₁ with
        reader := w₁.reader.setP (w₁.reader.p + 1)
        entry := w₁.entry.partialSetupAt w₁.entry.offset level
        level := level }, ?_, rfl, ?_⟩
      · rw [hnext, hk, moveNextLoop, if_neg hnot, hnull]
        dsimp only
        rw [moveNextLoop, if_pos (Nat.lt_succ_self level), Nat.add_sub_cancel]
      · have hbehind := hready.behind_null
        exact ⟨rfl, hsib₁, ⟨hhome.compileUnit, hhome.base, hhome.bytes, hhome.is64⟩,
          hbehind.version,
          hbehind.linkObject, hbehind.index, hbehind.getAbbrev, hbehind.is64, hbehind.here,
          hbehind.offset, hbehind.level, hbehind.filterTag, hbehind.bounded, hbehind.room,
          hbehind.offset_lt⟩
  | cons d children siblings =>
      obtain ⟨⟨a, hd⟩, -⟩ := hsiblings
      rw [Dies.encode_cons] at hready
      obtain ⟨w₂, hread, hat⟩ := readEntry_atEntry htable hd hhome hready (by
        simp only [List.length_append, List.length_singleton]
        omega)
      refine ⟨1 + k, true, w₂, ?_, rfl, hat⟩
      rw [hnext, hk, moveNextLoop, if_neg hnot, hread]
      dsimp only
      rw [if_pos hat.level]

/-- `move_down` into a list that is not empty. -/
theorem moveDown_arrives (htable : ∀ d ∈ table, d.Valid) {w : Walker} {d : Die} {children : Dies}
    {level off : Nat} {s : List UInt8} (hchildren : children.Valid fmt lo table)
    (hnil : d.hasChildren table = false → children = .nil) (hne : children ≠ .nil)
    (hat : AtEntry fmt lo index table cu w d off level (d.below fmt table children ++ s)) :
    ∃ found w', moveDown w = .ok (found, w') ∧
      Arrived fmt lo index table cu found w' children level (off + (d.encode fmt).length) s := by
  obtain ⟨a, habbrev, hd⟩ := hat.abbrev?
  have hhas : d.hasChildren table = true := by
    by_contra hfalse
    exact hne (hnil (Bool.eq_false_iff.mpr hfalse))
  have hflag : ¬ a.children = 0 := by
    have h := hd.hasChildren_eq
    rw [hhas] at h
    exact of_decide_eq_true h.symm
  have hready := hat.ready
  rw [Die.below, hhas, if_pos rfl, if_pos rfl, List.append_assoc] at hready
  cases children with
  | nil => exact absurd rfl hne
  | cons c grandchildren siblings =>
      obtain ⟨⟨b, hc⟩, -⟩ := hchildren
      rw [Dies.encode_cons] at hready
      obtain ⟨w₁, hread, hat₁⟩ := readEntry_atEntry htable hc hat.home hready (by
        simp only [List.length_append, List.length_singleton]
        omega)
      refine ⟨true, w₁, ?_, rfl, hat₁⟩
      rw [moveDown, habbrev]
      dsimp only
      rw [if_neg hflag, hread]

/-- `move_down` where there are no children: the walker keeps its entry. -/
theorem moveDown_nil {w : Walker} {d : Die} {level off : Nat} {s : List UInt8}
    (hat : AtEntry fmt lo index table cu w d off level (d.below fmt table .nil ++ s)) :
    ∃ w', moveDown w = .ok (false, w') ∧ w'.entry = w.entry ∧ Home cu w' ∧
      Ready fmt lo index table 0 w' (off + d.extent fmt table .nil) level s := by
  obtain ⟨a, habbrev, hd⟩ := hat.abbrev?
  have hhas := hd.hasChildren_eq
  have hready := hat.ready
  rw [Die.extent_eq, ← Nat.add_assoc, Die.below]
  rw [Die.below] at hready
  by_cases hflag : a.children = 0
  · have hfalse : d.hasChildren table = false := by
      rw [hhas]
      exact decide_eq_false (not_not.mpr hflag)
    rw [hfalse, if_neg Bool.false_ne_true, if_neg Bool.false_ne_true, List.nil_append] at hready
    rw [hfalse, if_neg Bool.false_ne_true, List.length_nil, Nat.add_zero]
    refine ⟨w, ?_, rfl, hat.home, hready⟩
    rw [moveDown, habbrev]
    exact if_pos hflag
  · have htrue : d.hasChildren table = true := by
      rw [hhas]
      exact decide_eq_true hflag
    rw [htrue, if_pos rfl, if_pos rfl, Dies.encode, List.nil_append] at hready
    rw [htrue, if_pos rfl, Dies.encode, List.nil_append]
    refine ⟨{ w with reader := w.reader.setP (w.reader.p + 1), level := level }, ?_, rfl,
      hat.home.setP _ _ _, hready.behind_null⟩
    rw [moveDown, habbrev]
    dsimp only
    rw [if_neg hflag, readEntry_zero hready]

/-! ### Whole loops -/

/-- Where nothing tells the walker to jump away from the entry `d`, an entry that is not descended
into, or has no children, is left for its next sibling. -/
theorem moveNext_from_entry (htable : ∀ d ∈ table, d.Valid) {w w₁ : Walker} {d : Die}
    {children siblings : Dies} {level off : Nat} {s : List UInt8}
    (hchildren : children.Valid fmt lo table) (hsiblings : siblings.Valid fmt lo table)
    (hnil : d.hasChildren table = false → children = .nil)
    (hlinked : children.Linked fmt lo index table cus cu (off + (d.encode fmt).length))
    (hat : AtEntry fmt lo index table cu w d off (level + 1)
      (d.below fmt table children ++ (siblings.encode fmt table ++ ([0] ++ s))))
    (hsib : w.entry.getAttribute dwAtSibling = none)
    (hw₁ : w₁ = w ∨ children = .nil ∧ moveDown w = .ok (false, w₁)) :
    ∃ n found w', moveNext cus n w₁ = .ok (found, w') ∧
      Arrived fmt lo index table cu found w' siblings level
        (off + d.extent fmt table children) s := by
  rcases hw₁ with rfl | ⟨rfl, hdown⟩
  · obtain ⟨w₂, hskip, hhome, hready, hsame, hlast⟩ :=
      (skipped_dies htable children hchildren (Nat.lt_succ_self (level + 1))).below hnil hlinked
        hat (Nat.le_refl _)
    refine moveNext_arrives htable hsiblings hat.level hsib hskip hhome hready ?_
    by_cases hc : children = .nil
    · rw [hsame hc]
      exact hsib
    · exact hlast hc
  · obtain ⟨w₂, hdown₂, hentry, hhome, hready⟩ := moveDown_nil hat
    cases hdown.symm.trans hdown₂
    rw [← hentry] at hsib
    refine moveNext_arrives htable hsiblings ?_ hsib (.refl _ _) hhome hready hsib
    rw [hentry]
    exact hat.level

/-- The loops below an entry that is descended into, and the move to its next sibling. -/
theorem visitBelow_visited (htable : ∀ d ∈ table, d.Valid) {w : Walker} {d : Die}
    {children siblings : Dies} {level off : Nat} {s : List UInt8}
    (hchildren : children.Valid fmt lo table) (hsiblings : siblings.Valid fmt lo table)
    (hnil : d.hasChildren table = false → children = .nil)
    (hlinked : children.Linked fmt lo index table cus cu (off + (d.encode fmt).length))
    (hat : AtEntry fmt lo index table cu w d off (level + 1)
      (d.below fmt table children ++ (siblings.encode fmt table ++ ([0] ++ s))))
    (hsib : (w.entry.getAttribute dwAtSibling).isSome → children ≠ .nil)
    (hloop : ∀ {found : Bool} {w₁ : Walker} {t : List UInt8},
      Arrived fmt lo index table cu found w₁ children (level + 1) (off + (d.encode fmt).length) t →
        ∃ n w', visitFrom cus descend n found w₁ =
            .ok (children.visited fmt lo index table descend (off + (d.encode fmt).length)
              (level + 1 + 1), w') ∧
          Behind fmt lo index table cu w' (level + 1)
            (off + (d.encode fmt).length + (children.encode fmt table).length + 1) t) :
    ∃ n w₁, visitBelow cus descend n w = .ok (children.visited fmt lo index table descend
          (off + (d.encode fmt).length) (level + 1 + 1), w₁) ∧
      ∃ m found w', moveNext cus m w₁ = .ok (found, w') ∧
        Arrived fmt lo index table cu found w' siblings level
          (off + d.extent fmt table children) s := by
  by_cases hc : children = .nil
  · subst hc
    have hnone : w.entry.getAttribute dwAtSibling = none := by
      by_contra hne
      exact hsib (Option.isSome_iff_ne_none.mpr hne) rfl
    obtain ⟨w₁, hdown, -⟩ := moveDown_nil hat
    refine ⟨1, w₁, ?_, moveNext_from_entry htable hchildren hsiblings hnil hlinked hat hnone
      (.inr ⟨rfl, hdown⟩)⟩
    rw [visitBelow, hdown]
    rfl
  · have hhas : d.hasChildren table = true := by
      by_contra hfalse
      exact hc (hnil (Bool.eq_false_iff.mpr hfalse))
    obtain ⟨found, w₁, hdown, harr⟩ := moveDown_arrives htable hchildren hnil hc hat
    obtain ⟨n, w₂, hrun, hbehind⟩ := hloop harr
    refine ⟨n, w₂, ?_, ?_⟩
    · rw [visitBelow, hdown]
      exact hrun
    · have hoff : off + d.extent fmt table children =
          off + (d.encode fmt).length + (children.encode fmt table).length + 1 := by
        rw [Die.extent, hhas, if_pos rfl]
        simp only [List.length_append, List.length_singleton]
        omega
      rw [hoff]
      exact moveNext_arrives htable hsiblings hbehind.level hbehind.sibling (.refl _ _)
        hbehind.home hbehind.ready hbehind.sibling

/-- **The loops over a list of siblings** visit its entries, if every one with a `DW_AT_sibling` is
descended into and has a child, and leave the walker behind the list. -/
theorem visitFrom_visited (htable : ∀ d ∈ table, d.Valid) (ds : Dies)
    (hds : ds.Valid fmt lo table) {found : Bool} {w : Walker} {level off : Nat} {s : List UInt8}
    (hlinked : ds.Linked fmt lo index table cus cu off)
    (hdesc : ds.Descended fmt lo index table descend off (level + 1))
    (h : Arrived fmt lo index table cu found w ds level off s) :
    ∃ n w', visitFrom cus descend n found w =
        .ok (ds.visited fmt lo index table descend off (level + 1), w') ∧
      Behind fmt lo index table cu w' level (off + (ds.encode fmt table).length + 1) s := by
  induction ds generalizing found w level off s with
  | nil =>
      obtain ⟨rfl, hbehind⟩ := h
      exact ⟨1, w, rfl, hbehind⟩
  | cons d children siblings ihc ihs =>
      obtain ⟨hd, hnil, hchildren, hsiblings⟩ := hds
      obtain ⟨-, hlc, hls⟩ := hlinked
      obtain ⟨hsib, hdc, hdsib⟩ := hdesc
      obtain ⟨rfl, hat⟩ := h
      rw [Dies.visited, Dies.length_encode_cons, ← Nat.add_assoc]
      have hview := hat.view
      have hattr := hat.getAttribute off (level + 1) dwAtSibling
      -- the entry's children, and then the move to the next sibling
      by_cases hdescend : descend (d.view lo index table off (level + 1)) = true
      · have hbelow : ∃ n w₁, visitBelow cus descend n w = .ok (children.visited fmt lo index table
              descend (off + (d.encode fmt).length) (level + 1 + 1), w₁) ∧
            ∃ m found w', moveNext cus m w₁ = .ok (found, w') ∧
              Arrived fmt lo index table cu found w' siblings level
                (off + d.extent fmt table children) s := by
          refine visitBelow_visited htable hchildren hsiblings hnil hlc hat ?_
            (fun harr => ihc hchildren hlc (hdc hdescend) harr)
          rw [hattr]
          exact fun hsome => (hsib hsome).2
        obtain ⟨n₁, w₁, hrun₁, n₂, found, w₂, hrun₂, harr⟩ := hbelow
        obtain ⟨n₃, w₃, hrun₃, hbehind⟩ := ihs hsiblings hls hdsib harr
        refine ⟨max n₁ (max n₂ n₃) + 1, w₃, ?_, hbehind⟩
        rw [if_pos hdescend, ← hview]
        exact visitFrom_of_descend (by rw [hview]; exact hdescend)
          (visitBelow_mono hrun₁ (by omega)) (moveNext_mono hrun₂ (by omega))
          (visitFrom_mono hrun₃ (by omega))
      · have hnone : w.entry.getAttribute dwAtSibling = none := by
          rw [hattr]
          by_contra hne
          exact hdescend (hsib (Option.isSome_iff_ne_none.mpr hne)).1
        obtain ⟨n₂, found, w₂, hrun₂, harr⟩ := moveNext_from_entry htable hchildren hsiblings hnil
          hlc hat hnone (.inl rfl)
        obtain ⟨n₃, w₃, hrun₃, hbehind⟩ := ihs hsiblings hls hdsib harr
        refine ⟨max n₂ n₃ + 1, w₃, ?_, hbehind⟩
        rw [if_neg hdescend, List.nil_append, ← hview]
        exact visitFrom_of_not_descend (by rw [hview]; exact Bool.eq_false_iff.mpr hdescend)
          (moveNext_mono hrun₂ (by omega)) (visitFrom_mono hrun₃ (by omega))

/-! ### Jumps -/

/-- The first entry that is not as expected has another level. -/
def Deviates (vs us : List EntryView) : Prop :=
  ∃ shared v vs' u us', vs = shared ++ v :: vs' ∧ us = shared ++ u :: us' ∧ v.level ≠ u.level

/-- Lists that deviate are different. -/
theorem Deviates.ne {vs us : List EntryView} (h : Deviates vs us) : vs ≠ us := by
  obtain ⟨shared, v, vs', u, us', rfl, rfl, hne⟩ := h
  intro heq
  have hcons := List.append_cancel_left heq
  rw [List.cons.injEq] at hcons
  exact hne (congrArg EntryView.level hcons.1)

/-- Lists still deviate with something before and behind. -/
theorem Deviates.append {vs us : List EntryView} (h : Deviates vs us)
    (shared more more' : List EntryView) :
    Deviates (shared ++ (vs ++ more)) (shared ++ (us ++ more')) := by
  obtain ⟨shared', v, vs', u, us', rfl, rfl, hne⟩ := h
  exact ⟨shared ++ shared', v, vs' ++ more, u, us' ++ more', by simp, by simp, hne⟩

/-- Lists still deviate with something before. -/
theorem Deviates.prepend {vs us : List EntryView} (h : Deviates vs us)
    (shared : List EntryView) : Deviates (shared ++ vs) (shared ++ us) := by
  have happ := h.append shared [] []
  rwa [List.append_nil, List.append_nil] at happ

/-- After a `seek` to what is behind the entry and its children. -/
theorem AtEntry.seek {w w₁ : Walker} {d : Die} {children : Dies} {level off : Nat}
    {s : List UInt8}
    (hat : AtEntry fmt lo index table cu w d off level (d.below fmt table children ++ s))
    (hentry : w₁.entry = w.entry) (hfilter : w₁.filterTag = 0) :
    Ready fmt lo index table 0
      { w₁ with
        compileUnit := cu
        reader := (Read.seek (off + d.extent fmt table children) cu.getContents).2
        level := 0 } (off + d.extent fmt table children) 0 s := by
  have hready := hat.ready
  have hhome := hat.home
  have hoff : off + d.extent fmt table children =
      off + (d.encode fmt).length + (d.below fmt table children).length := by
    rw [Die.extent_eq, Nat.add_assoc]
  have hroom := hready.room
  have hlt := hready.offset_lt
  rw [List.length_append] at hroom hlt
  have hrest := hready.here.rest_eq
  rw [Reader.rest, if_pos hready.here.base_le, hready.offset, Nat.add_sub_cancel_left,
    hhome.bytes] at hrest
  have hdrop : cu.getContents.bytes.drop (off + d.extent fmt table children) = s := by
    rw [hoff, ← List.drop_drop, hrest, List.drop_left]
  have hlen : off + d.extent fmt table children ≤ cu.getContents.bytes.length := by
    have h := congrArg List.length hrest
    rw [List.length_drop, List.length_append] at h
    have hend := hready.here.end_eq
    rw [Reader.end_, hready.offset, hhome.bytes, List.length_append] at hend
    omega
  have hseek := cu.getContents.at_seek hlen
  rw [hdrop] at hseek
  have hp : (Read.seek (off + d.extent fmt table children) cu.getContents).2 =
      cu.getContents.setP (cu.getContents.base + (off + d.extent fmt table children)) := by
    rw [cu.getContents.seek_eq hlen]
  exact {
    version := hhome.compileUnit ▸ hready.version
    linkObject := hhome.compileUnit ▸ hready.linkObject
    index := hhome.compileUnit ▸ hready.index
    getAbbrev := hhome.compileUnit ▸ hready.getAbbrev
    is64 := by
      dsimp only
      rw [hp, Reader.setP_is64, ← hhome.is64]
      exact hready.is64
    here := hseek
    offset := by
      have hfits := cu.getContents.fits
      dsimp only
      rw [hp, Reader.setP_p _ (by omega), Reader.setP_base]
    level := rfl
    filterTag := hfilter
    bounded := by
      dsimp only
      rw [hentry]
      exact hready.bounded
    room := by
      dsimp only
      rw [hentry]
      omega
    offset_lt := by omega }

/-- **A jump forgets the level.** -/
theorem moveNext_jumps (htable : ∀ d ∈ table, d.Valid) {w w₁ : Walker} {d : Die}
    {children siblings : Dies} {level off n : Nat} {s : List UInt8} {res : Bool × Walker}
    {v : Value} (hlinked : (Dies.cons d children siblings).Linked fmt lo index table cus cu off)
    (hsiblings : siblings.Valid fmt lo table)
    (hat : AtEntry fmt lo index table cu w d off (level + 1)
      (d.below fmt table children ++ (siblings.encode fmt table ++ ([0] ++ s))))
    (hattr : w.entry.getAttribute dwAtSibling = some v) (hentry : w₁.entry = w.entry)
    (hfilter : w₁.filterTag = 0) (hnext : moveNext cus n w₁ = .ok res) :
    siblings ≠ .nil ∧ res.1 = true ∧ res.2.view.level = 0 := by
  obtain ⟨hsib, -⟩ := hlinked
  have hattr₀ := hattr
  rw [hat.getAttribute off 0] at hattr₀
  obtain ⟨hne, ref, rfl, hresolve⟩ := hsib v hattr₀
  refine ⟨hne, ?_⟩
  have hready := hat.seek hentry hfilter
  cases siblings with
  | nil => exact absurd rfl hne
  | cons d' children' siblings' =>
      obtain ⟨⟨a, hd'⟩, -⟩ := hsiblings
      rw [Dies.encode_cons] at hready
      obtain ⟨w₂, hread, hview, -⟩ := readEntry_read htable hd'.spelled hready
        (blocksInside_of_pos _
          (by simp only [List.length_append, List.length_singleton]; omega))
        (fun h => h.1 rfl)
      rw [moveNext, hentry, hattr] at hnext
      dsimp only at hnext
      rw [moveTo, Walker.seek, hresolve, Option.map_some] at hnext
      dsimp only at hnext
      rw [hread] at hnext
      cases hnext
      exact ⟨rfl, congrArg EntryView.level hview⟩

/-- What a loop that has found an entry returns starts with it. -/
theorem visitFrom_head {n : Nat} {w w' : Walker} {vs : List EntryView}
    (h : visitFrom cus descend n true w = .ok (vs, w')) : ∃ rest, vs = w.view :: rest := by
  cases n with
  | zero => cases h
  | succ n =>
      obtain ⟨inner, -, -, -, rest, -, -, -, rfl⟩ := visitFrom_eq_ok h
      exact ⟨inner ++ rest, rfl⟩

/-- A jump away from an entry, with nothing visited below it. -/
theorem deviates_of_jump (htable : ∀ d ∈ table, d.Valid) {w w₁ w₂ w' : Walker} {d : Die}
    {children siblings : Dies} {level off n : Nat} {s : List UInt8} {found : Bool}
    {rest : List EntryView}
    (hlinked : (Dies.cons d children siblings).Linked fmt lo index table cus cu off)
    (hsiblings : siblings.Valid fmt lo table)
    (hat : AtEntry fmt lo index table cu w d off (level + 1)
      (d.below fmt table children ++ (siblings.encode fmt table ++ ([0] ++ s))))
    (hattr : (w.entry.getAttribute dwAtSibling).isSome) (hentry : w₁.entry = w.entry)
    (hfilter : w₁.filterTag = 0) (hnext : moveNext cus n w₁ = .ok (found, w₂))
    (hrest : visitFrom cus descend n found w₂ = .ok (rest, w')) :
    Deviates (w.view :: rest) (d.view lo index table off (level + 1) ::
      siblings.visited fmt lo index table descend (off + d.extent fmt table children)
        (level + 1)) := by
  obtain ⟨v, hv⟩ := Option.isSome_iff_exists.mp hattr
  obtain ⟨hne, hfound, hlevel⟩ :=
    moveNext_jumps htable hlinked hsiblings hat hv hentry hfilter hnext
  dsimp only at hfound hlevel
  subst hfound
  obtain ⟨rest', rfl⟩ := visitFrom_head hrest
  cases siblings with
  | nil => exact absurd rfl hne
  | cons d' children' siblings' =>
      rw [hat.view, Dies.visited]
      refine ⟨[d.view lo index table off (level + 1)], w₂.view, rest', _, _, rfl, rfl, ?_⟩
      rw [hlevel]
      exact (Nat.succ_ne_zero level).symm

/-- An entry with a `DW_AT_sibling` that is descended into, but has no child: none was read, so the
entry is still there for the next move. -/
theorem deviates_of_childless (htable : ∀ d ∈ table, d.Valid) {w w₁ w₂ w' : Walker} {d : Die}
    {siblings : Dies} {level off n : Nat} {s : List UInt8} {found : Bool}
    {inner rest : List EntryView}
    (hlinked : (Dies.cons d .nil siblings).Linked fmt lo index table cus cu off)
    (hsiblings : siblings.Valid fmt lo table)
    (hat : AtEntry fmt lo index table cu w d off (level + 1)
      (d.below fmt table .nil ++ (siblings.encode fmt table ++ ([0] ++ s))))
    (hattr : (w.entry.getAttribute dwAtSibling).isSome)
    (hbelow : visitBelow cus descend n w = .ok (inner, w₁))
    (hnext : moveNext cus n w₁ = .ok (found, w₂))
    (hrest : visitFrom cus descend n found w₂ = .ok (rest, w')) :
    Deviates (w.view :: (inner ++ rest)) (d.view lo index table off (level + 1) ::
      siblings.visited fmt lo index table descend (off + d.extent fmt table .nil)
        (level + 1)) := by
  obtain ⟨w₀, hdown, hentry, -, hready⟩ := moveDown_nil hat
  obtain ⟨⟨f, u⟩, hdown', hfrom⟩ := bind_eq_ok hbelow
  cases hdown.symm.trans hdown'
  cases n with
  | zero => cases hfrom
  | succ n =>
      cases hfrom
      exact deviates_of_jump htable hlinked hsiblings hat hattr hentry hready.filterTag hnext hrest

/-- An entry that is descended into, and where nothing is wrong itself: the deviation is among its
children or behind it. -/
theorem deviates_of_descent (htable : ∀ d ∈ table, d.Valid) {w w₁ w₂ w' : Walker} {d : Die}
    {children siblings : Dies} {level off n : Nat} {s : List UInt8} {found : Bool}
    {inner rest : List EntryView} (hchildren : children.Valid fmt lo table)
    (hsiblings : siblings.Valid fmt lo table)
    (hnil : d.hasChildren table = false → children = .nil)
    (hlinked : children.Linked fmt lo index table cus cu (off + (d.encode fmt).length))
    (hat : AtEntry fmt lo index table cu w d off (level + 1)
      (d.below fmt table children ++ (siblings.encode fmt table ++ ([0] ++ s))))
    (hsib : (w.entry.getAttribute dwAtSibling).isSome → children ≠ .nil)
    (hbelow : visitBelow cus descend n w = .ok (inner, w₁))
    (hnext : moveNext cus n w₁ = .ok (found, w₂))
    (hrest : visitFrom cus descend n found w₂ = .ok (rest, w'))
    (ihc : ∀ {f : Bool} {u : Walker} {t : List UInt8}, ¬ children.Descended fmt lo index table
        descend (off + (d.encode fmt).length) (level + 1 + 1) →
      Arrived fmt lo index table cu f u children (level + 1) (off + (d.encode fmt).length) t →
      visitFrom cus descend n f u = .ok (inner, w₁) →
      Deviates inner (children.visited fmt lo index table descend
        (off + (d.encode fmt).length) (level + 1 + 1)))
    (ihs : children.Descended fmt lo index table descend (off + (d.encode fmt).length)
        (level + 1 + 1) →
      Arrived fmt lo index table cu found w₂ siblings level (off + d.extent fmt table children) s →
      visitFrom cus descend n found w₂ = .ok (rest, w') →
      Deviates rest (siblings.visited fmt lo index table descend
        (off + d.extent fmt table children) (level + 1))) :
    Deviates (w.view :: (inner ++ rest)) (d.view lo index table off (level + 1) ::
      (children.visited fmt lo index table descend (off + (d.encode fmt).length)
          (level + 1 + 1) ++
        siblings.visited fmt lo index table descend (off + d.extent fmt table children)
          (level + 1))) := by
  rw [hat.view]
  by_cases hgood : children.Descended fmt lo index table descend (off + (d.encode fmt).length)
      (level + 1 + 1)
  · obtain ⟨m, w₃, hrun₃, j, found₃, w₄, hnext₄, harr⟩ := visitBelow_visited htable hchildren
      hsiblings hnil hlinked hat hsib
      (fun harr => visitFrom_visited htable children hchildren hlinked hgood harr)
    cases visitBelow_unique hbelow hrun₃
    cases moveNext_unique hnext hnext₄
    exact (ihs hgood harr hrest).prepend (d.view lo index table off (level + 1) :: _)
  · have hc : children ≠ .nil := by
      rintro rfl
      exact hgood trivial
    obtain ⟨⟨f, u⟩, hdown, hfrom⟩ := bind_eq_ok hbelow
    obtain ⟨f', u', hdown', harr⟩ := moveDown_arrives htable hchildren hnil hc hat
    cases hdown.symm.trans hdown'
    exact (ihc hgood harr hfrom).append [d.view lo index table off (level + 1)] rest _

/-- **The loops over a list of siblings deviate** where an entry with a `DW_AT_sibling` is not
descended into or has no child. -/
theorem visitFrom_deviates (htable : ∀ d ∈ table, d.Valid) (ds : Dies)
    (hds : ds.Valid fmt lo table) {found : Bool} {w w' : Walker} {level off n : Nat}
    {s : List UInt8} {vs : List EntryView} (hlinked : ds.Linked fmt lo index table cus cu off)
    (hdesc : ¬ ds.Descended fmt lo index table descend off (level + 1))
    (h : Arrived fmt lo index table cu found w ds level off s)
    (hrun : visitFrom cus descend n found w = .ok (vs, w')) :
    Deviates vs (ds.visited fmt lo index table descend off (level + 1)) := by
  induction ds generalizing found w w' level off n s vs with
  | nil => exact absurd trivial hdesc
  | cons d children siblings ihc ihs =>
      obtain ⟨-, hnil, hchildren, hsiblings⟩ := hds
      have hlinked' := hlinked
      obtain ⟨-, hlc, hls⟩ := hlinked'
      obtain ⟨rfl, hat⟩ := h
      cases n with
      | zero => cases hrun
      | succ n =>
      obtain ⟨inner, w₁, found, w₂, rest, hinner, hnext, hrest, rfl⟩ := visitFrom_eq_ok hrun
      rw [hat.view] at hinner
      have hattr := hat.getAttribute off (level + 1) dwAtSibling
      rw [Dies.visited]
      rcases hinner with ⟨hdescend, hbelow⟩ | ⟨hdescend, rfl, rfl⟩
      · rw [if_pos hdescend]
        by_cases hjump : (w.entry.getAttribute dwAtSibling).isSome ∧ children = .nil
        · obtain ⟨hsome, rfl⟩ := hjump
          exact deviates_of_childless htable hlinked hsiblings hat hsome hbelow hnext hrest
        · have hsib : (w.entry.getAttribute dwAtSibling).isSome → children ≠ .nil :=
            fun hsome hc => hjump ⟨hsome, hc⟩
          refine deviates_of_descent htable hchildren hsiblings hnil hlc hat hsib hbelow hnext hrest
            (ihc hchildren hlc) fun hgood => ihs hsiblings hls fun hs => hdesc ⟨fun hsome => ?_,
              fun _ => hgood, hs⟩
          exact ⟨hdescend, hsib (hattr ▸ hsome)⟩
      · have hno : ¬ descend (d.view lo index table off (level + 1)) = true := by
          rw [hdescend]
          exact Bool.false_ne_true
        rw [if_neg hno, List.nil_append, List.nil_append]
        by_cases hsome : (w₁.entry.getAttribute dwAtSibling).isSome
        · exact deviates_of_jump htable hlinked hsiblings hat hsome rfl hat.ready.filterTag hnext
            hrest
        · have hnone := Option.not_isSome_iff_eq_none.mp hsome
          obtain ⟨m, found', w₃, hnext₃, harr⟩ := moveNext_from_entry htable hchildren hsiblings
            hnil hlc hat hnone (.inl rfl)
          cases moveNext_unique hnext hnext₃
          have hbad : ¬ siblings.Descended fmt lo index table descend
              (off + d.extent fmt table children) (level + 1) := fun hs =>
            hdesc ⟨fun h => absurd (hattr ▸ h) hsome, fun h => absurd h hno, hs⟩
          rw [hat.view]
          exact (ihs hsiblings hls hbad harr hrest).prepend [d.view lo index table off (level + 1)]

/-! ### Below an entry -/

/-- The starting entry `d`, which the walker has just read. -/
structure Start (fmt : Format) (lo : LinkObject) (index : Nat) (table : List AbbrevDecl)
    (cus : List CompileUnit) (cu : CompileUnit) (w : Walker) (d : Die) (children : Dies)
    (off level : Nat) : Prop where
  abbrevs_valid : ∀ d ∈ table, d.Valid
  hasChildren : d.hasChildren table = false → children = .nil
  children_valid : children.Valid fmt lo table
  linked : children.Linked fmt lo index table cus cu (off + (d.encode fmt).length)
  read : ∃ w₀ s, 1 ≤ (d.below fmt table children ++ s).length ∧ (∃ a, d.Valid fmt lo table a) ∧
    Home cu w₀ ∧
    Ready fmt lo index table 0 w₀ off level (d.encode fmt ++ (d.below fmt table children ++ s)) ∧
    w₀.readEntry = .ok (.ok, w)

/-- The walker is at the entry. -/
theorem Start.atEntry {w : Walker} {d : Die} {children : Dies} {off level : Nat}
    (h : Start fmt lo index table cus cu w d children off level) :
    ∃ s, AtEntry fmt lo index table cu w d off level (d.below fmt table children ++ s) := by
  obtain ⟨w₀, s, hs, ⟨a, hd⟩, hhome, hready, hread⟩ := h.read
  obtain ⟨w', hread', hat⟩ := readEntry_atEntry h.abbrevs_valid hd hhome hready hs
  cases hread.symm.trans hread'
  exact ⟨s, hat⟩

/-- Where every entry with a sibling is descended into, the loop visits what is below the entry. -/
theorem Start.visitBelow {w : Walker} {d : Die} {children : Dies} {off level : Nat}
    (h : Start fmt lo index table cus cu w d children off level)
    (hdesc : children.Descended fmt lo index table descend (off + (d.encode fmt).length)
      (level + 1)) :
    ∃ n w', Walker.visitBelow cus descend n w = .ok
      (children.visited fmt lo index table descend (off + (d.encode fmt).length) (level + 1),
        w') := by
  obtain ⟨s, hat⟩ := h.atEntry
  by_cases hc : children = .nil
  · subst hc
    obtain ⟨w₁, hdown, -⟩ := moveDown_nil hat
    refine ⟨1, w₁, ?_⟩
    rw [Walker.visitBelow, hdown]
    rfl
  · obtain ⟨found, w₁, hdown, harr⟩ :=
      moveDown_arrives h.abbrevs_valid h.children_valid h.hasChildren hc hat
    obtain ⟨n, w₂, hrun, -⟩ :=
      visitFrom_visited h.abbrevs_valid children h.children_valid h.linked hdesc harr
    refine ⟨n, w₂, ?_⟩
    rw [Walker.visitBelow, hdown]
    exact hrun

/-- Where the loop visits what is below, every entry with a sibling is descended into. -/
theorem Start.descended {w w' : Walker} {d : Die} {children : Dies} {off level n : Nat}
    (h : Start fmt lo index table cus cu w d children off level)
    (hrun : Walker.visitBelow cus descend n w = .ok
      (children.visited fmt lo index table descend (off + (d.encode fmt).length) (level + 1),
        w')) :
    children.Descended fmt lo index table descend (off + (d.encode fmt).length) (level + 1) := by
  by_contra hdesc
  obtain ⟨s, hat⟩ := h.atEntry
  have hc : children ≠ .nil := by
    rintro rfl
    exact hdesc trivial
  obtain ⟨found, w₁, hdown, harr⟩ :=
    moveDown_arrives h.abbrevs_valid h.children_valid h.hasChildren hc hat
  obtain ⟨⟨f, u⟩, hdown', hfrom⟩ := bind_eq_ok hrun
  cases hdown.symm.trans hdown'
  exact (visitFrom_deviates h.abbrevs_valid children h.children_valid h.linked hdesc harr
    hfrom).ne rfl

/-- **Nested loops over siblings and children.**  They visit exactly the entries below the starting
entry whose ancestors up to it are descended into, in preorder and each with its depth for its
level, exactly if every entry visited that has a `DW_AT_sibling` is descended into and has a
child. -/
theorem visitBelow_visits_iff {w : Walker} {d : Die} {children : Dies} {off level : Nat}
    (h : Start fmt lo index table cus cu w d children off level) :
    (∃ n w', Walker.visitBelow cus descend n w = .ok
        (children.visited fmt lo index table descend (off + (d.encode fmt).length) (level + 1),
          w')) ↔
      children.Descended fmt lo index table descend (off + (d.encode fmt).length) (level + 1) := by
  constructor
  · rintro ⟨n, w', hrun⟩
    exact h.descended hrun
  · exact h.visitBelow

end

/-! ### A unit with siblings -/

/-- A unit with children; an entry that has a `DW_AT_sibling`, without and with children; and one
that has no attributes. -/
def siblingAbbrevs : List AbbrevDecl :=
  [{ code := .byte 1, tag := .byte 0x11, children := true, specs := [] },
    { code := .byte 2, tag := .byte 0x24, children := false, specs := [(.byte 0x01, .byte 0x13)] },
    { code := .byte 3, tag := .byte 0x13, children := true, specs := [(.byte 0x01, .byte 0x13)] },
    { code := .byte 4, tag := .byte 0x0d, children := false, specs := [] }]

/-- The abbreviations can be written. -/
theorem siblingAbbrevs_valid : ∀ d ∈ siblingAbbrevs, d.Valid := by
  intro d hd
  simp only [siblingAbbrevs, List.mem_cons, List.not_mem_nil, or_false] at hd
  rcases hd with rfl | rfl | rfl | rfl
  · exact ⟨by decide, by decide, by decide, by decide, by decide⟩
  · exact ⟨by decide, by decide, by decide, by decide, by decide⟩
  · exact ⟨by decide, by decide, by decide, by decide, by decide⟩
  · exact ⟨by decide, by decide, by decide, by decide, by decide⟩

/-- A root entry without attributes. -/
def unitDie : Die := { code := .byte 1, operands := [] }

/-- An entry without attributes and children. -/
def leafDie : Die := { code := .byte 4, operands := [] }

/-- A type and a variable behind it, which the type's sibling is. -/
def typeAndLeaf : Dies :=
  .cons { code := .byte 2, operands := [.ref4 17] } .nil (.cons leafDie .nil .nil)

/-- A structure with a member, and a variable behind it, which the structure's sibling is. -/
def structAndLeaf : Dies :=
  .cons { code := .byte 3, operands := [.ref4 19] } (.cons leafDie .nil .nil)
    (.cons leafDie .nil .nil)

/-- What is behind the header: the root and these children. -/
def unitBody (children : Dies) : List UInt8 :=
  unitDie.encode .four ++ (children.encode .four siblingAbbrevs ++ [0])

section
variable (children : Dies) (hlen : (unitBody children).length + 7 < 0xfffffff0)

/-- The unit whose root has these children. -/
def siblingUnit : Unit32 := .ofBody .four (unitBody children) Format.four_is64 hlen

/-- An object with their unit and its abbreviations. -/
def siblingObject : LinkObject :=
  .ofSections 0 0
    ⟨4096, (siblingUnit children hlen).encode, by
      have hlt := (siblingUnit children hlen).length_lt
      rw [Unit32.length_encode]
      omega⟩
    ⟨8192, encodeTable siblingAbbrevs, by decide⟩

/-- The unit when it is loaded. -/
def siblingCompileUnit : CompileUnit :=
  (((siblingUnit children hlen).loaded { index := 0, linkObject := siblingObject children hlen }
    ((siblingObject children hlen).getSection .info).getContents).readAbbrevs
      ((siblingObject children hlen).getSection .abbrevs).getContents).1

/-- References into the unit are found. -/
theorem resolve_siblingCompileUnit (off : Nat) :
    resolveReference [siblingCompileUnit children hlen]
        { resolver := .compileUnit 0, offset := off } =
      some (siblingCompileUnit children hlen, off) := by
  have hindex : (siblingCompileUnit children hlen).index = 0 := by
    rw [siblingCompileUnit, CompileUnit.readAbbrevs]
    rfl
  rw [resolveReference]
  dsimp only
  rw [List.find?_cons_of_pos (by simp [hindex])]
  rfl

/-- A walker at the root of the unit. -/
theorem start_sibling (hvalid : children.Valid .four (siblingObject children hlen) siblingAbbrevs)
    (hlinked : children.Linked .four (siblingObject children hlen) 0 siblingAbbrevs
      [siblingCompileUnit children hlen] (siblingCompileUnit children hlen) 12) :
    ∃ w, (Walker.ofUnit (siblingCompileUnit children hlen)).readEntry = .ok (.ok, w) ∧
      Start .four (siblingObject children hlen) 0 siblingAbbrevs
        [siblingCompileUnit children hlen] (siblingCompileUnit children hlen) w unitDie children
        headerLength 0 := by
  have hr := ((siblingObject children hlen).getSection .info).at_getContents.append_nil
  have htable : (((siblingObject children hlen).getSection .abbrevs).getContents).bytes.drop
      (siblingUnit children hlen).abbrevOffset = encodeTable siblingAbbrevs ++ [] :=
    (List.append_nil _).symm
  have hready := ready_ofUnit (siblingObject children hlen) siblingAbbrevs_valid hr
    (Nat.zero_le _) htable 0 0
  have hroot : unitDie.Valid .four (siblingObject children hlen) siblingAbbrevs
      { code := 1, tag := 0x11, children := 1, attrSpecs := [] } :=
    ⟨by decide, rfl, by simp [unitDie]⟩
  have hbelow : unitDie.below .four siblingAbbrevs children =
      children.encode .four siblingAbbrevs ++ [0] := if_pos (by decide)
  have hready' : Ready .four (siblingObject children hlen) 0 siblingAbbrevs 0
      (Walker.ofUnit (siblingCompileUnit children hlen)) headerLength 0
      (unitDie.encode .four ++ (unitDie.below .four siblingAbbrevs children ++ [])) := by
    rw [List.append_nil, hbelow, ← Walker.setFilterTag_zero]
    exact hready
  have hhome := home_ofUnit (siblingCompileUnit children hlen)
  have hlen' : 1 ≤ (unitDie.below .four siblingAbbrevs children ++ []).length := by
    rw [hbelow]
    simp
  obtain ⟨w, hread, -⟩ := readEntry_atEntry siblingAbbrevs_valid hroot hhome hready' hlen'
  exact ⟨w, hread, siblingAbbrevs_valid, fun hno => absurd hno (by decide), hvalid, hlinked,
    _, _, hlen', ⟨_, hroot⟩, hhome, hready', hread⟩

end

/-- The sibling of the type is the leaf behind it. -/
theorem typeAndLeaf_linked (h : (unitBody typeAndLeaf).length + 7 < 0xfffffff0) :
    typeAndLeaf.Linked .four (siblingObject typeAndLeaf h) 0 siblingAbbrevs
      [siblingCompileUnit typeAndLeaf h] (siblingCompileUnit typeAndLeaf h) 12 := by
  refine ⟨fun v hv => ⟨by decide, ⟨.compileUnit 0, 17⟩, ?_, resolve_siblingCompileUnit _ h 17⟩,
    trivial, fun v hv => ?_, trivial, trivial⟩
  · exact (Option.some.inj hv).symm
  · cases hv

/-- The sibling of the structure is the leaf behind its child. -/
theorem structAndLeaf_linked (h : (unitBody structAndLeaf).length + 7 < 0xfffffff0) :
    structAndLeaf.Linked .four (siblingObject structAndLeaf h) 0 siblingAbbrevs
      [siblingCompileUnit structAndLeaf h] (siblingCompileUnit structAndLeaf h) 12 := by
  refine ⟨fun v hv => ⟨by decide, ⟨.compileUnit 0, 19⟩, ?_, resolve_siblingCompileUnit _ h 19⟩,
    ⟨fun v hv => ?_, trivial, trivial⟩, fun v hv => ?_, trivial, trivial⟩
  · exact (Option.some.inj hv).symm
  · cases hv
  · cases hv

theorem leafDie_valid (lo : LinkObject) : ∃ a, leafDie.Valid .four lo siblingAbbrevs a :=
  ⟨_, rfl, rfl, by simp [leafDie]⟩

/-- `recursive_dump` on a type with a `DW_AT_sibling` and a variable behind it: the jump leaves the
variable with the level 0, against the assertion. -/
theorem visitBelow_jump_loses_level :
    ¬ ∀ (fmt : Format) (lo : LinkObject) (index : Nat) (table : List AbbrevDecl)
      (cus : List CompileUnit) (cu : CompileUnit) (descend : EntryView → Bool) (w : Walker)
      (d : Die) (children : Dies) (off level : Nat),
      Start fmt lo index table cus cu w d children off level →
        ∃ n w', Walker.visitBelow cus descend n w = .ok
          (children.visited fmt lo index table descend (off + (d.encode fmt).length) (level + 1),
            w') := by
  intro hall
  have hlen : (unitBody typeAndLeaf).length + 7 < 0xfffffff0 := by decide
  have hvalid : typeAndLeaf.Valid .four (siblingObject typeAndLeaf hlen) siblingAbbrevs :=
    ⟨⟨_, rfl, rfl, by simp [Operand.Valid, Operand.Spelled, Operand.ReadBack]⟩, fun _ => rfl,
      trivial, leafDie_valid _, fun _ => rfl, trivial, trivial⟩
  obtain ⟨w, -, hstart⟩ := start_sibling typeAndLeaf hlen hvalid (typeAndLeaf_linked hlen)
  obtain ⟨n, w', hrun⟩ := hall _ _ _ _ _ _ (fun _ => true) _ _ _ _ _ hstart
  exact (hstart.descended hrun).1 rfl |>.2 rfl

theorem length_unitBody_struct : (unitBody structAndLeaf).length + 7 < 0xfffffff0 := by decide

/-- A structure with a `DW_AT_sibling` is descended into and has a member, so that no jump is
taken. -/
theorem visitBelow_visits_struct :
    ∃ w, (Walker.ofUnit (siblingCompileUnit structAndLeaf length_unitBody_struct)).readEntry =
        .ok (.ok, w) ∧
      ∃ n w' vs, Walker.visitBelow [siblingCompileUnit structAndLeaf length_unitBody_struct]
          (fun _ => true) n w = .ok (vs, w') ∧
        vs.map (fun v => (v.offset, v.level)) = [(12, 1), (17, 2), (19, 1)] := by
  have hvalid : structAndLeaf.Valid .four (siblingObject structAndLeaf length_unitBody_struct)
      siblingAbbrevs :=
    ⟨⟨_, rfl, rfl, by simp [Operand.Valid, Operand.Spelled, Operand.ReadBack]⟩,
      fun hno => absurd hno (by decide), ⟨leafDie_valid _, fun _ => rfl, trivial, trivial⟩,
      leafDie_valid _, fun _ => rfl, trivial, trivial⟩
  obtain ⟨w, hread, hstart⟩ :=
    start_sibling structAndLeaf length_unitBody_struct hvalid (structAndLeaf_linked _)
  have hdesc : structAndLeaf.Descended .four (siblingObject structAndLeaf length_unitBody_struct) 0
      siblingAbbrevs (fun _ => true) (headerLength + (unitDie.encode .four).length) (0 + 1) :=
    ⟨fun _ => ⟨rfl, fun h => by cases h⟩,
      fun _ => ⟨(fun h => by cases h), fun _ => trivial, trivial⟩, (fun h => by cases h),
      fun _ => trivial, trivial⟩
  obtain ⟨n, w', hrun⟩ := (visitBelow_visits_iff hstart).mpr hdesc
  exact ⟨w, hread, n, w', _, hrun, rfl⟩

end NovaProva.Dwarf
