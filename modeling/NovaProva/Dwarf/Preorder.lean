import NovaProva.Dwarf.Operands
import NovaProva.Dwarf.Units

/-!
# Dwarf — Preorder

A walker over a compile unit returns the entries of its tree in preorder, each with its own offset,
level, tag and attributes, and with a filter those of one tag.

* `Entry.getAttribute_addValues`: the slots with the latest generation are those of the entry's
  own attributes.
* `readEntry_die`: one call of `read_entry` reads one entry, or skips it.
* `enumerates_dies`: along a list of siblings and their children, from one call to the next.
* `fails_dies`: the same, with a form that `read_attributes` can't handle among theirs.
-/

namespace NovaProva.Dwarf

open Walker

/-! ### The attributes of an entry -/

/-- What stands for the last attribute with a name. -/
def lastOf {α : Type} : List AttrSpec → List α → Nat → Option α
  | i :: is, v :: vs, name => (lastOf is vs name).or (if i.name = name then some v else none)
  | _, _, _ => none

/-- The last value, of values made of others. -/
theorem lastOf_map {α β : Type} (f : α → β) (specs : List AttrSpec) (vs : List α) (name : Nat) :
    lastOf specs (vs.map f) name = (lastOf specs vs name).map f := by
  induction specs generalizing vs with
  | nil => rfl
  | cons i is ih =>
      cases vs with
      | nil => rfl
      | cons v vs =>
          rw [List.map_cons, lastOf, lastOf, ih, Option.map_or]
          split
          · rfl
          · rfl

/-- It is one of the values. -/
theorem mem_of_lastOf {α : Type} {specs : List AttrSpec} {vs : List α} {name : Nat} {v : α}
    (h : lastOf specs vs name = some v) : v ∈ vs := by
  induction specs generalizing vs with
  | nil => cases h
  | cons i is ih =>
      cases vs with
      | nil => cases h
      | cons u vs =>
          rw [lastOf, Option.or_eq_some_iff] at h
          rcases h with h | ⟨-, h⟩
          · exact List.mem_cons_of_mem _ (ih h)
          · obtain ⟨-, heq⟩ := Option.ite_none_right_eq_some.mp h
            cases heq
            exact List.mem_cons_self

namespace Entry

/-- Values added in turn. -/
def addValues : List AttrSpec → List Value → Entry → Entry
  | i :: is, v :: vs, e => addValues is vs (e.addAttribute i.name v)
  | _, _, e => e

/-- The two ranges of names that have a slot. -/
theorem nameToIndex_eq_some {n i : Nat} (h : nameToIndex n = some i) :
    (n < 0x6f ∧ n = i) ∨ (0x2000 ≤ n ∧ 0x6f + n - 0x2000 = i) := by
  unfold nameToIndex dwAtMaxBasic dwAtLoUser at h
  split at h
  case isTrue hlt =>
    exact .inl ⟨hlt, Option.some.inj h⟩
  · split at h
    case isTrue huser =>
      exact .inr ⟨huser.1, Option.some.inj h⟩
    · cases h

/-- Two names never share a slot. -/
theorem nameToIndex_inj {m n i : Nat} (hm : nameToIndex m = some i) (hn : nameToIndex n = some i) :
    m = n := by
  rcases nameToIndex_eq_some hm with ⟨hm₁, hm₂⟩ | ⟨hm₁, hm₂⟩
  · rcases nameToIndex_eq_some hn with ⟨hn₁, hn₂⟩ | ⟨hn₁, hn₂⟩ <;> omega
  · rcases nameToIndex_eq_some hn with ⟨hn₁, hn₂⟩ | ⟨hn₁, hn₂⟩ <;> omega

/-- What is not an attribute slot does not change. -/
theorem addAttribute_frame (e : Entry) (name : Nat) (v : Value) :
    (e.addAttribute name v).offset = e.offset ∧ (e.addAttribute name v).level = e.level ∧
      (e.addAttribute name v).abbrev? = e.abbrev? ∧ (e.addAttribute name v).latest = e.latest := by
  unfold addAttribute
  split
  · exact ⟨rfl, rfl, rfl, rfl⟩
  · exact ⟨rfl, rfl, rfl, rfl⟩

/-- Attributes change nothing else of the entry. -/
theorem addValues_frame (specs : List AttrSpec) (vs : List Value) (e : Entry) :
    (addValues specs vs e).offset = e.offset ∧ (addValues specs vs e).level = e.level ∧
      (addValues specs vs e).abbrev? = e.abbrev? ∧ (addValues specs vs e).latest = e.latest := by
  induction specs generalizing vs e with
  | nil => exact ⟨rfl, rfl, rfl, rfl⟩
  | cons i is ih =>
      cases vs with
      | nil => exact ⟨rfl, rfl, rfl, rfl⟩
      | cons v vs =>
          obtain ⟨ho, hl, ha, ht⟩ := ih vs (e.addAttribute i.name v)
          obtain ⟨ho', hl', ha', ht'⟩ := e.addAttribute_frame i.name v
          exact ⟨ho.trans ho', hl.trans hl', ha.trans ha', ht.trans ht'⟩

/-- An attribute is read back, if it has a place among the values. -/
theorem getAttribute_addAttribute (e : Entry) (name : Nat) (v : Value) (m : Nat) :
    (e.addAttribute name v).getAttribute m =
      if m = name ∧ (nameToIndex m).isSome then some v else e.getAttribute m := by
  cases hm : nameToIndex m with
  | none =>
      rw [if_neg (by simp), getAttribute, getAttribute, hm]
  | some j =>
      cases hn : nameToIndex name with
      | none =>
          have hne : m ≠ name := by
            rintro rfl
            rw [hm] at hn
            cases hn
          rw [if_neg (fun h => hne h.1), addAttribute, hn]
      | some i =>
          by_cases hij : j = i
          · subst hij
            have hname := nameToIndex_inj hm hn
            rw [if_pos ⟨hname, rfl⟩, addAttribute, hn, getAttribute, hm]
            simp
          · have hne : m ≠ name := by
              rintro rfl
              rw [hm] at hn
              exact hij (Option.some.inj hn)
            rw [if_neg (fun h => hne h.1), addAttribute, hn, getAttribute, getAttribute, hm]
            simp [Function.update_of_ne hij]

/-- The slots of the latest generation are those of the attributes added, and what was there
before. -/
theorem getAttribute_addValues (specs : List AttrSpec) (vs : List Value) (e : Entry) (m : Nat)
    (hm : (nameToIndex m).isSome) :
    (addValues specs vs e).getAttribute m = (lastOf specs vs m).or (e.getAttribute m) := by
  induction specs generalizing vs e with
  | nil => rfl
  | cons i is ih =>
      cases vs with
      | nil => rfl
      | cons v vs =>
          rw [addValues, ih, lastOf, Option.or_assoc, getAttribute_addAttribute]
          congr 1
          by_cases hi : i.name = m
          · rw [if_pos ⟨hi.symm, hm⟩, if_pos hi]
            rfl
          · rw [if_neg (fun h => hi h.1.symm), if_neg hi]
            rfl

/-- No generation is ahead of the latest. -/
def Bounded (e : Entry) : Prop := ∀ i, e.generation i ≤ e.latest

theorem Bounded.addAttribute {e : Entry} (h : e.Bounded) (name : Nat) (v : Value) :
    (e.addAttribute name v).Bounded := by
  intro i
  unfold Entry.addAttribute
  split
  · exact h i
  next j hj =>
    by_cases hi : i = j
    · subst hi
      simp
    · simpa [Function.update_of_ne hi] using h i

/-- Values leave the generations below the latest one. -/
theorem Bounded.addValues {e : Entry} (h : e.Bounded) (specs : List AttrSpec) (vs : List Value) :
    (e.addValues specs vs).Bounded := by
  induction specs generalizing vs e with
  | nil => exact h
  | cons i is ih =>
      cases vs with
      | nil => exact h
      | cons v vs => exact ih (h.addAttribute i.name v) vs

end Entry

/-! ### Reading and skipping the attributes -/

/-- A list of specifications that fits the operands of an entry has its first form. -/
theorem forms_cons {i : AttrSpec} {is : List AttrSpec} {op : Operand} {ops : List Operand}
    (h : (i :: is).map (·.form) = (op :: ops).map (·.form.code)) :
    Form.ofCode i.form = some op.form ∧ is.map (·.form) = ops.map (·.form.code) := by
  rw [List.map_cons, List.map_cons, List.cons.injEq] at h
  exact ⟨by rw [h.1, Form.ofCode_code], h.2⟩

/-- The values that `read_attributes` reads, if it reads all of them. -/
def readValues (cu : CompileUnit) : List AttrSpec → Reader → Option (List Value × Reader)
  | [],      r => some ([], r)
  | i :: is, r =>
      match (Form.ofCode i.form).bind (readForm cu) with
      | none   => none
      | some x =>
          match x r with
          | (none, _)    => none
          | (some v, r') => (readValues cu is r').map fun q => (v :: q.1, q.2)

section
variable {fmt : Format} {w : Walker} {specs : List AttrSpec} {ops : List Operand}
  {s : List UInt8}

/-- No block of the list has nothing behind it. -/
def BlocksInside (fmt : Format) : List Operand → List UInt8 → Prop
  | [],        _ => True
  | op :: ops, s =>
      (op.form.isBlock = true → ops.flatMap (Operand.encode fmt) ++ s ≠ []) ∧
        BlocksInside fmt ops s

/-- With a byte behind the operands no block ends with the buffer. -/
theorem blocksInside_of_pos (ops : List Operand) (hs : 1 ≤ s.length) : BlocksInside fmt ops s := by
  induction ops with
  | nil => exact trivial
  | cons op ops ih =>
      refine ⟨fun _ => ?_, ih⟩
      exact List.append_ne_nil_of_right_ne_nil _ (List.length_pos_iff.mp hs)

/-- Behind a block there is something. -/
theorem BlocksInside.of_split (h : BlocksInside fmt ops s) {pre post : List Operand} {op : Operand}
    (hsplit : ops = pre ++ op :: post) (hblock : op.form.isBlock = true) :
    post.flatMap (Operand.encode fmt) ++ s ≠ [] := by
  subst hsplit
  induction pre with
  | nil => exact h.1 hblock
  | cons o pre ih => exact ih h.2

/-- The attributes of an entry are its values. -/
theorem readAttributes_of_readValues {vs : List Value} {r : Reader}
    (h : readValues w.compileUnit specs w.reader = some (vs, r)) :
    readAttributes specs w = .ok (.ok, { w with
      reader := r
      entry := w.entry.addValues specs vs }) := by
  induction specs generalizing w vs with
  | nil =>
      cases h
      rfl
  | cons i is ih =>
      rw [readValues] at h
      rw [readAttributes]
      cases hform : (Form.ofCode i.form).bind (readForm w.compileUnit) with
      | none =>
          rw [hform] at h
          cases h
      | some x =>
          rw [hform] at h
          dsimp only at h ⊢
          rcases hx : x w.reader with ⟨- | v, r'⟩
          · rw [hx] at h
            cases h
          · rw [hx] at h
            obtain ⟨⟨vs', r''⟩, hrest, heq⟩ := Option.map_eq_some_iff.mp h
            cases heq
            exact ih hrest

/-- Reading attributes of which each form reads its operand, with the bytes behind it, as `val`
of it. -/
theorem readValues_reads {cu : CompileUnit} {r : Reader} (enc : Operand → List UInt8)
    (val : Operand → Value) (hforms : specs.map (·.form) = ops.map (·.form.code))
    (hops : ∀ pre op post, ops = pre ++ op :: post →
      ∃ x, readForm cu op.form = some x ∧
        Reads r.is64 (post.flatMap enc ++ s).length x (enc op) (val op))
    (hat : r.At (ops.flatMap enc ++ s)) :
    readValues cu specs r =
      some (ops.map val, r.setP (r.p + (ops.flatMap enc).length)) := by
  induction specs generalizing r ops with
  | nil =>
      cases ops with
      | nil =>
          rw [readValues, List.flatMap_nil, List.length_nil, Nat.add_zero, Reader.setP_self]
          rfl
      | cons op ops => cases hforms
  | cons i is ih =>
      cases ops with
      | nil => cases hforms
      | cons op ops =>
          obtain ⟨hform, htail⟩ := forms_cons hforms
          obtain ⟨x, hx, hreads⟩ := hops [] op ops rfl
          rw [List.flatMap_cons, List.append_assoc] at hat
          have hread := hreads rfl (Nat.le_refl _) hat
          have hrest := ih (r := r.setP (r.p + (enc op).length)) htail
            (fun pre o post h => hops (op :: pre) o post (congrArg (op :: ·) h)) hat.setP
          rw [readValues, hform, Option.bind_some, hx]
          dsimp only
          rw [hread]
          dsimp only
          rw [hrest, List.flatMap_cons, List.length_append, ← Nat.add_assoc, Reader.setP_setP]
          rfl

/-- **Operands are read one after the other**, however they are written. -/
theorem readAttributes_reads (enc : Operand → List UInt8) (val : Operand → Value)
    (hforms : specs.map (·.form) = ops.map (·.form.code))
    (hops : ∀ pre op post, ops = pre ++ op :: post →
      ∃ x, readForm w.compileUnit op.form = some x ∧
        Reads w.reader.is64 (post.flatMap enc ++ s).length x (enc op) (val op))
    (hat : w.reader.At (ops.flatMap enc ++ s)) :
    readAttributes specs w = .ok (.ok, { w with
      reader := w.reader.setP (w.reader.p + (ops.flatMap enc).length)
      entry := w.entry.addValues specs (ops.map val) }) :=
  readAttributes_of_readValues (readValues_reads enc val hforms hops hat)

/-- Operands that can be written are read. -/
theorem readAttributes_operands (hv : w.compileUnit.version = fmt.version)
    (hi : w.reader.is64 = fmt.is64)
    (hforms : specs.map (·.form) = ops.map (·.form.code))
    (hops : ∀ op ∈ ops, op.Spelled fmt w.compileUnit.linkObject) (hs : BlocksInside fmt ops s)
    (hat : w.reader.At (ops.flatMap (Operand.encode fmt) ++ s)) :
    readAttributes specs w = .ok (.ok, { w with
      reader := w.reader.setP (w.reader.p + (ops.flatMap (Operand.encode fmt)).length)
      entry := w.entry.addValues specs
        (ops.map (Operand.readValue w.compileUnit.linkObject w.compileUnit.index)) }) := by
  refine readAttributes_reads _ _ hforms (fun pre op post hsplit => ?_) hat
  rw [hi]
  refine readForm_operand hv op (hops op (by simp [hsplit])) fun hblock => ?_
  exact List.length_pos_iff.mpr (hs.of_split hsplit hblock)

/-- Where a block has nothing behind it reading comes to an end. -/
theorem readAttributes_block_end (hv : w.compileUnit.version = fmt.version)
    (hi : w.reader.is64 = fmt.is64)
    (hforms : specs.map (·.form) = ops.map (·.form.code))
    (hops : ∀ op ∈ ops, op.Spelled fmt w.compileUnit.linkObject) (hs : ¬ BlocksInside fmt ops s)
    (hat : w.reader.At (ops.flatMap (Operand.encode fmt) ++ s)) :
    ∃ r e, readAttributes specs w = .ok (.eof, { w with reader := r, entry := e }) := by
  induction specs generalizing w ops with
  | nil =>
      cases ops with
      | nil => exact absurd trivial hs
      | cons op ops => cases hforms
  | cons i is ih =>
      cases ops with
      | nil => cases hforms
      | cons op ops =>
          obtain ⟨hform, htail⟩ := forms_cons hforms
          have hop := hops op List.mem_cons_self
          rw [List.flatMap_cons, List.append_assoc] at hat
          rw [readAttributes, hform, Option.bind_some]
          by_cases hblock : op.form.isBlock = true →
              ops.flatMap (Operand.encode fmt) ++ s ≠ []
          · -- this one is read, and the block is further on
            obtain ⟨x, hx, hreads⟩ := readForm_operand hv op hop
              fun hb => List.length_pos_iff.mpr (hblock hb)
            rw [hx]
            dsimp only
            rw [hreads hi (Nat.le_refl _) hat]
            exact ih (w := { w with
                reader := w.reader.setP (w.reader.p + (op.encode fmt).length)
                entry := w.entry.addAttribute i.name
                  (op.readValue w.compileUnit.linkObject w.compileUnit.index) })
              hv hi htail (fun o ho => hops o (List.mem_cons_of_mem _ ho))
              (fun htl => hs ⟨hblock, htl⟩) hat.setP
          · obtain ⟨hb, hnil⟩ := Classical.not_imp.mp hblock
            rw [not_not.mp hnil, List.append_nil] at hat
            obtain ⟨x, hx, hnone⟩ := readForm_block_end op hop hb hat
            rw [hx]
            dsimp only
            rcases hread : x w.reader with ⟨v, r⟩
            rw [hread] at hnone
            cases hnone
            exact ⟨r, w.entry, rfl⟩

/-- Operands of which one is in a form that can't be handled have at least one byte. -/
theorem flatMap_encode_ne_nil (h : ¬ ∀ op ∈ ops, op.Handled) :
    ops.flatMap (Operand.encode fmt) ≠ [] := by
  intro hnil
  refine h fun op hop => ?_
  by_contra hno
  exact Operand.encode_ne_nil hno (List.flatMap_eq_nil_iff.mp hnil op hop)

/-- A form that can't be handled ends the process. -/
theorem readAttributes_not_handled (hv : w.compileUnit.version = fmt.version)
    (hi : w.reader.is64 = fmt.is64)
    (hforms : specs.map (·.form) = ops.map (·.form.code))
    (hops : ∀ op ∈ ops, op.Writable fmt w.compileUnit.linkObject)
    (hno : ¬ ∀ op ∈ ops, op.Handled)
    (hat : w.reader.At (ops.flatMap (Operand.encode fmt) ++ s)) :
    ∃ f, readAttributes specs w = .error f := by
  induction specs generalizing w ops with
  | nil =>
      cases ops with
      | nil => exact absurd (List.forall_mem_nil _) hno
      | cons op ops => cases hforms
  | cons i is ih =>
      cases ops with
      | nil => cases hforms
      | cons op ops =>
          obtain ⟨hform, htail⟩ := forms_cons hforms
          rw [List.flatMap_cons, List.append_assoc] at hat
          rw [readAttributes, hform, Option.bind_some]
          by_cases hop : op.Handled
          · -- the form that can't be handled is further on
            have hrest : ¬ ∀ o ∈ ops, o.Handled := fun h => hno (List.forall_mem_cons.mpr ⟨hop, h⟩)
            have hne : ops.flatMap (Operand.encode fmt) ++ s ≠ [] :=
              List.append_ne_nil_of_left_ne_nil (flatMap_encode_ne_nil hrest) s
            obtain ⟨x, hx, hreads⟩ := readForm_operand hv op (hops op List.mem_cons_self hop)
              fun _ => List.length_pos_iff.mpr hne
            rw [hx]
            dsimp only
            rw [hreads hi (Nat.le_refl _) hat]
            exact ih (w := { w with
                reader := w.reader.setP (w.reader.p + (op.encode fmt).length)
                entry := w.entry.addAttribute i.name
                  (op.readValue w.compileUnit.linkObject w.compileUnit.index) })
              hv hi htail (fun o ho => hops o (List.mem_cons_of_mem _ ho)) hrest hat.setP
          · rw [readForm_not_handled hop]
            exact ⟨_, rfl⟩

/-- Operands that can be written are skipped. -/
theorem skipAttributes_operands (hv : w.compileUnit.version = fmt.version)
    (hi : w.reader.is64 = fmt.is64)
    (hforms : specs.map (·.form) = ops.map (·.form.code))
    (hops : ∀ op ∈ ops, op.Spelled fmt w.compileUnit.linkObject) (hs : 1 ≤ s.length)
    (hat : w.reader.At (ops.flatMap (Operand.encode fmt) ++ s)) :
    skipAttributes specs w = .ok (.ok, { w with
      reader := w.reader.setP (w.reader.p + (ops.flatMap (Operand.encode fmt)).length) }) := by
  induction specs generalizing w ops with
  | nil =>
      cases ops with
      | nil =>
          rw [skipAttributes, List.flatMap_nil, List.length_nil, Nat.add_zero, Reader.setP_self]
      | cons op ops => cases hforms
  | cons i is ih =>
      cases ops with
      | nil => cases hforms
      | cons op ops =>
          obtain ⟨hform, htail⟩ := forms_cons hforms
          obtain ⟨x, hx, hreads⟩ := skipForm_operand hv op (hops op List.mem_cons_self)
          rw [List.flatMap_cons, List.append_assoc] at hat
          have hread := hreads hi (hs.trans (by simp)) hat
          have hrest := ih (w := { w with
              reader := w.reader.setP (w.reader.p + (op.encode fmt).length) })
            hv hi htail (fun o ho => hops o (List.mem_cons_of_mem _ ho)) hat.setP
          rw [skipAttributes, hform, Option.bind_some, hx]
          dsimp only
          rw [hread]
          dsimp only
          rw [hrest, List.flatMap_cons, List.length_append, ← Nat.add_assoc]
          dsimp only
          rw [Reader.setP_setP]

end

/-! ### What a caller is to see -/

section
variable (fmt : Format) (lo : LinkObject) (index : Nat) (table : List AbbrevDecl)

/-- The entry `d` at an offset and a level, with `val` of its operands for its values: a name has a
value if it has a slot and the entry's abbreviation has it, and of several values the last. -/
def Die.viewWith (val : Operand → Value) (off level : Nat) (d : Die) : EntryView where
  offset := off
  level := level
  tag := ((lookupAbbrev table d.code.toNat).map (·.tag)).getD 0
  getAttribute name :=
    (lookupAbbrev table d.code.toNat).bind fun a =>
      if (Entry.nameToIndex name).isSome then lastOf a.attrSpecs (d.operands.map val) name
      else none

/-- The entries of a list of siblings and their children in preorder. -/
def Dies.viewsWith (val : Operand → Value) : Nat → Nat → Dies → List EntryView
  | _,   _,     .nil => []
  | off, level, .cons d children siblings =>
      let below := if d.hasChildren table then children.encode fmt table ++ [0] else []
      d.viewWith table val off level ::
        (Dies.viewsWith val (off + (d.encode fmt).length) (level + 1) children ++
          Dies.viewsWith val (off + (d.encode fmt ++ below).length) level siblings)

/-- The entries of a unit in preorder; the root is behind the header, at the level 0. -/
def Tree.viewsWith (val : Operand → Value) (tree : Tree) : List EntryView :=
  tree.root.viewWith table val headerLength 0 ::
    tree.children.viewsWith fmt table val (headerLength + (tree.root.encode fmt).length) 1

/-- An entry of the unit `index` of `lo` with the values its operands stand for. -/
def Die.view (off level : Nat) (d : Die) : EntryView :=
  d.viewWith table (Operand.value lo index) off level

/-- The entries of the unit with the values their operands stand for. -/
def Tree.views (tree : Tree) : List EntryView :=
  tree.viewsWith fmt table (Operand.value lo index)

/-- Whether the filter `tag`, if it is set, lets an entry through. -/
def passes (tag : Nat) (v : EntryView) : Bool := tag = 0 || v.tag = tag

/-! ### From one call of `read_entry` to the next -/

/-- Calls of `read_entry` from `w` to `w'`, and the entries returned on the way. -/
inductive Enumerates : Walker → List EntryView → Walker → Prop where
  | refl (w : Walker) : Enumerates w [] w
  | found {w w₁ w' : Walker} {vs : List EntryView} (h : w.readEntry = .ok (.ok, w₁))
      (t : Enumerates w₁ vs w') : Enumerates w (w₁.view :: vs) w'
  | passed {w w₁ w' : Walker} {vs : List EntryView} {res : ReadEntryResult}
      (h : w.readEntry = .ok (res, w₁)) (hres : res = .eol ∨ res = .filtered)
      (t : Enumerates w₁ vs w') : Enumerates w vs w'

/-- A walk goes on where another ends. -/
theorem Enumerates.trans {w w₁ w' : Walker} {vs us : List EntryView}
    (h₁ : Enumerates w vs w₁) (h₂ : Enumerates w₁ us w') : Enumerates w (vs ++ us) w' := by
  induction h₁ with
  | refl w => exact h₂
  | found h _ ih => exact .found h (ih h₂)
  | passed h hres _ ih => exact .passed h hres (ih h₂)

/-- A walker with the filter `tag` over a unit with the abbreviations of `table`, at the offset
`off` of the unit and the level `level`, with the bytes `s` before it. -/
structure Ready (tag : Nat) (w : Walker) (off level : Nat) (s : List UInt8) : Prop where
  version : w.compileUnit.version = fmt.version
  linkObject : w.compileUnit.linkObject = lo
  index : w.compileUnit.index = index
  getAbbrev : ∀ code, w.compileUnit.getAbbrev code = lookupAbbrev table code
  is64 : w.reader.is64 = fmt.is64
  here : w.reader.At s
  offset : w.reader.p = w.reader.base + off
  level : w.level = level
  filterTag : w.filterTag = tag
  bounded : w.entry.Bounded
  /-- the generations do not run out -/
  room : w.entry.latest + s.length < 2 ^ 32
  offset_lt : off + s.length < 2 ^ 32

variable {fmt lo index table}

/-- Entries whose operands are seen alike. -/
theorem Die.Fits.viewWith_congr {P : Operand → Prop} {d : Die} {a : Abbrev} (hd : d.Fits P table a)
    {val val' : Operand → Value} (h : ∀ op, P op → val op = val' op) (off level : Nat) :
    d.viewWith table val off level = d.viewWith table val' off level := by
  rw [Die.viewWith, Die.viewWith, List.map_congr_left fun op hop => h op (hd.operands op hop)]

/-- The views depend on what the operands that fit are read as. -/
theorem Dies.Fits.viewsWith_congr {P : Operand → Prop} {ds : Dies} (hds : ds.Fits table P)
    {val val' : Operand → Value} (h : ∀ op, P op → val op = val' op) (off level : Nat) :
    ds.viewsWith fmt table val off level = ds.viewsWith fmt table val' off level := by
  induction ds generalizing off level with
  | nil => rfl
  | cons d children siblings ihc ihs =>
      obtain ⟨⟨a, hd⟩, -, hchildren, hsiblings⟩ := hds
      rw [Dies.viewsWith, Dies.viewsWith, hd.viewWith_congr h, ihc hchildren, ihs hsiblings]

/-- What is read back is read as what it stands for. -/
theorem Die.Fits.readView {d : Die} {a : Abbrev} (hd : d.Valid fmt lo table a) (off level : Nat) :
    d.viewWith table (Operand.readValue lo index) off level = d.view lo index table off level :=
  hd.viewWith_congr (fun _ h => h.readValue_eq index) off level

/-- A tree that is read back is seen as it was written. -/
theorem Tree.Valid.viewsWith_readValue {tree : Tree} (h : tree.Valid fmt lo table) :
    tree.viewsWith fmt table (Operand.readValue lo index) = tree.views fmt lo index table := by
  obtain ⟨a, hroot⟩ := h.root
  rw [Tree.views, Tree.viewsWith, Tree.viewsWith, hroot.readView,
    h.children.viewsWith_congr fun _ h => h.readValue_eq index]
  rfl

/-- The operands may have to satisfy less. -/
theorem Die.Fits.mono {P Q : Operand → Prop} {d : Die} {a : Abbrev} (h : d.Fits P table a)
    (hPQ : ∀ op, P op → Q op) : d.Fits Q table a :=
  ⟨h.lookup, h.forms, fun op hop => hPQ op (h.operands op hop)⟩

/-- The operands below may have to satisfy less. -/
theorem Dies.Fits.mono {P Q : Operand → Prop} {ds : Dies} (h : ds.Fits table P)
    (hPQ : ∀ op, P op → Q op) : ds.Fits table Q := by
  induction ds with
  | nil => trivial
  | cons d children siblings ihc ihs =>
      obtain ⟨⟨a, hd⟩, hleaf, hchildren, hsiblings⟩ := h
      exact ⟨⟨a, hd.mono hPQ⟩, hleaf, ihc hchildren, ihs hsiblings⟩

/-- An entry that is read back can be written. -/
theorem Die.Fits.spelled {d : Die} {a : Abbrev} (h : d.Valid fmt lo table a) :
    d.Spelled fmt lo table a :=
  h.mono fun _ hop => hop.1

/-- A tree that is read back can be written. -/
theorem Tree.Valid.spelled {tree : Tree} (h : tree.Valid fmt lo table) :
    tree.Spelled fmt lo table where
  root := by
    obtain ⟨a, hroot⟩ := h.root
    exact ⟨a, hroot.spelled⟩
  leaf hno := by
    rw [h.hasChildren] at hno
    cases hno
  children := h.children.mono fun _ hop => hop.1

/-- The walker's reader is at the offset of the entry. -/
theorem Ready.getOffset {tag : Nat} {w : Walker} {off level : Nat} {s : List UInt8}
    (h : Ready fmt lo index table tag w off level s) : w.reader.getOffset = off := by
  rw [h.here.getOffset, h.offset, Nat.add_sub_cancel_left]

/-- The position behind the bytes that were read. -/
theorem Ready.offset_setP {tag : Nat} {w : Walker} {off level : Nat} {bs s : List UInt8}
    (h : Ready fmt lo index table tag w off level (bs ++ s)) :
    (w.reader.setP (w.reader.p + bs.length)).p = w.reader.base + (off + bs.length) := by
  have hend := h.here.end_eq
  have hlt := w.reader.end_lt
  have hoff := h.offset
  rw [List.length_append] at hend
  rw [w.reader.setP_p (by omega)]
  omega

/-- Abbreviations have codes that are neither 0 nor too large. -/
theorem lookupAbbrev_code {code : Nat} {a : Abbrev} (htable : ∀ d ∈ table, d.Valid)
    (h : lookupAbbrev table code = some a) : code ≠ 0 ∧ code < 2 ^ 32 := by
  unfold lookupAbbrev at h
  obtain ⟨d, hd, -⟩ := Option.map_eq_some_iff.mp h
  have hmem := htable d (List.mem_reverse.mp (List.mem_of_find?_eq_some hd))
  have hcode : d.code.toNat = code := by simpa using List.find?_some hd
  have hpos := hmem.code_pos
  have hlt := hmem.code_lt
  omega

/-- The walker behind the bytes `bs`, with another entry and level. -/
theorem Ready.move {tag : Nat} {w : Walker} {off level : Nat} {bs s : List UInt8}
    (h : Ready fmt lo index table tag w off level (bs ++ s)) {e : Entry} (he : e.Bounded)
    (hroom : e.latest + s.length < 2 ^ 32) (level' : Nat) :
    Ready fmt lo index table tag
      { w with
        reader := w.reader.setP (w.reader.p + bs.length)
        entry := e
        level := level' } (off + bs.length) level' s where
  version := h.version
  linkObject := h.linkObject
  index := h.index
  getAbbrev := h.getAbbrev
  is64 := h.is64
  here := h.here.setP
  offset := h.offset_setP
  level := rfl
  filterTag := h.filterTag
  bounded := he
  room := hroom
  offset_lt := by
    have hlt := h.offset_lt
    rw [List.length_append] at hlt
    omega

/-- An entry is as long as its code and its operands. -/
theorem Die.length_encode (d : Die) (fmt : Format) : (d.encode fmt).length =
    d.code.bytes.length + (d.operands.flatMap (Operand.encode fmt)).length := by
  rw [Die.encode, List.length_append]

/-- Behind the code and then behind the operands of an entry. -/
theorem Die.setP_encode (d : Die) {fmt : Format} {r : Reader} :
    (r.setP (r.p + d.code.bytes.length)).setP ((r.setP (r.p + d.code.bytes.length)).p +
      (d.operands.flatMap (Operand.encode fmt)).length) = r.setP (r.p + (d.encode fmt).length) := by
  rw [Reader.setP_setP, d.length_encode, Nat.add_assoc]

/-- `read_entry` on an entry reads its code and goes on to its attributes. -/
theorem readEntry_eq_readBody {P : Operand → Prop} {tag : Nat} {w : Walker} {off level : Nat}
    {s : List UInt8} {d : Die} {a : Abbrev} (htable : ∀ d ∈ table, d.Valid)
    (hd : d.Fits P table a) (h : Ready fmt lo index table tag w off level (d.encode fmt ++ s)) :
    w.readEntry =
      (readBody { w with reader := w.reader.setP (w.reader.p + d.code.bytes.length) } off a).map
        fun q => (q.1, if a.children ≠ 0 then { q.2 with level := q.2.level + 1 } else q.2) := by
  obtain ⟨hne, hlt⟩ := lookupAbbrev_code htable hd.lookup
  have hat := h.here
  rw [Die.encode, List.append_assoc] at hat
  have hcode := (Reads.readUleb128 hlt).run hat
  rw [readEntry, hcode]
  dsimp only
  rw [if_neg hne, h.getAbbrev, hd.lookup]
  dsimp only
  rw [h.getOffset]
  rcases readBody { w with reader := w.reader.setP (w.reader.p + d.code.bytes.length) } off a with
    f | ⟨res, w'⟩
  · rfl
  · rfl

/-- `read_entry` on an entry whose attributes `readBody` gets through. -/
theorem readEntry_of_readBody {tag : Nat} {w : Walker} {off level : Nat} {s : List UInt8} {d : Die}
    {a : Abbrev} (htable : ∀ d ∈ table, d.Valid) (hd : d.Spelled fmt lo table a)
    (h : Ready fmt lo index table tag w off level (d.encode fmt ++ s))
    {res : ReadEntryResult} {r : Reader} {e : Entry}
    (hbody : readBody { w with reader := w.reader.setP (w.reader.p + d.code.bytes.length) } off a =
      .ok (res, { w with reader := r, entry := e })) :
    w.readEntry = .ok (res, { w with
      reader := r
      entry := e
      level := if a.children ≠ 0 then level + 1 else level }) := by
  rw [readEntry_eq_readBody htable hd h, hbody, ← h.level]
  dsimp only [Except.map]
  split
  · rfl
  · rfl

/-- A new generation: none of the slots is the entry's yet. -/
theorem getAttribute_setup {e : Entry} (h : e.Bounded) (hlt : e.latest + 1 < 2 ^ 32)
    (off level : Nat) (a : Abbrev) (name : Nat) :
    (e.setup off level a).getAttribute name = none := by
  unfold Entry.getAttribute
  split
  · rfl
  next i _ =>
    have hle := h i
    rw [if_neg]
    simp only [Entry.setup, Nat.mod_eq_of_lt hlt]
    omega

/-- The next generation. -/
theorem bounded_setup {e : Entry} (h : e.Bounded) (hlt : e.latest + 1 < 2 ^ 32)
    (off level : Nat) (a : Abbrev) : (e.setup off level a).Bounded := by
  intro i
  have hle := h i
  simp only [Entry.setup, Nat.mod_eq_of_lt hlt]
  omega

/-- What is seen of an entry after its attributes are read. -/
theorem view_addValues {w : Walker} {e : Entry} {off level : Nat} {a : Abbrev}
    {vs : List Value} (he : e.Bounded) (hlt : e.latest + 1 < 2 ^ 32) (hoff : off < 2 ^ 32)
    (hw : w.entry = (e.setup off level a).addValues a.attrSpecs vs) :
    w.view = {
      offset := off
      level := level
      tag := a.tag
      getAttribute := fun name =>
        if (Entry.nameToIndex name).isSome then lastOf a.attrSpecs vs name else none } := by
  obtain ⟨ho, hl, ha, -⟩ := Entry.addValues_frame a.attrSpecs vs (e.setup off level a)
  rw [Walker.view, hw, Entry.getTag, ho, hl, ha, EntryView.mk.injEq]
  refine ⟨Nat.mod_eq_of_lt hoff, rfl, rfl, ?_⟩
  funext name
  split
  case isTrue hname =>
    rw [Entry.getAttribute_addValues _ _ _ _ hname, getAttribute_setup he hlt]
    exact Option.or_none
  case isFalse hname =>
    rw [Entry.getAttribute, Option.not_isSome_iff_eq_none.mp hname]

/-- **One call of `read_entry` reads one entry** that the filter lets through. -/
theorem readEntry_read {tag : Nat} {w : Walker} {off level : Nat} {s : List UInt8} {d : Die}
    {a : Abbrev} (htable : ∀ d ∈ table, d.Valid) (hd : d.Spelled fmt lo table a)
    (h : Ready fmt lo index table tag w off level (d.encode fmt ++ s))
    (hs : BlocksInside fmt d.operands s)
    (hfilter : ¬ (tag ≠ 0 ∧ a.tag ≠ tag)) :
    ∃ w', w.readEntry = .ok (.ok, w') ∧
      w'.view = d.viewWith table (Operand.readValue lo index) off level ∧
      w'.entry.abbrev? = some a ∧ w'.reader = w.reader.setP (w.reader.p + (d.encode fmt).length) ∧
      Ready fmt lo index table tag w' (off + (d.encode fmt).length)
        (if a.children ≠ 0 then level + 1 else level) s := by
  have hroom := h.room
  have hoff := h.offset_lt
  have hpos := d.code.length_pos
  have hsize := d.length_encode fmt
  rw [List.length_append, hsize, Leb.length_bytes] at hroom hoff
  have hat := h.here
  rw [Die.encode, List.append_assoc] at hat
  have hops : ∀ op ∈ d.operands, op.Spelled fmt w.compileUnit.linkObject := by
    rw [h.linkObject]
    exact hd.operands
  have hattrs := readAttributes_operands
    (w := { w with
      reader := w.reader.setP (w.reader.p + d.code.bytes.length)
      entry := w.entry.setup off w.level a }) h.version h.is64 hd.forms hops hs hat.setP
  have hbody : readBody { w with
      reader := w.reader.setP (w.reader.p + d.code.bytes.length) } off a = .ok (.ok, { w with
        reader := w.reader.setP (w.reader.p + (d.encode fmt).length)
        entry := (w.entry.setup off w.level a).addValues a.attrSpecs
          (d.operands.map (Operand.readValue lo index)) }) := by
    rw [readBody, if_neg (by rw [h.filterTag]; exact hfilter), hattrs, ← d.setP_encode,
      h.linkObject, h.index]
  have hlatest : w.entry.latest + 1 < 2 ^ 32 := by omega
  obtain ⟨-, -, habbrev, hlat⟩ := Entry.addValues_frame a.attrSpecs
    (d.operands.map (Operand.readValue lo index)) (w.entry.setup off w.level a)
  refine ⟨_, readEntry_of_readBody htable hd h hbody, ?_, habbrev, rfl, h.move
    ((bounded_setup h.bounded hlatest _ _ _).addValues _ _) ?_ _⟩
  · rw [view_addValues h.bounded hlatest (by omega) rfl, h.level, Die.viewWith, hd.lookup]
    rfl
  · rw [hlat, Entry.setup, Nat.mod_eq_of_lt hlatest]
    dsimp only
    omega

/-- An entry with a block that has nothing behind it is not read. -/
theorem readEntry_block_end {w : Walker} {off level : Nat} {s : List UInt8} {d : Die} {a : Abbrev}
    (htable : ∀ d ∈ table, d.Valid) (hd : d.Spelled fmt lo table a)
    (h : Ready fmt lo index table 0 w off level (d.encode fmt ++ s))
    (hs : ¬ BlocksInside fmt d.operands s) : ∃ w', w.readEntry = .ok (.eof, w') := by
  have hat := h.here
  rw [Die.encode, List.append_assoc] at hat
  have hops : ∀ op ∈ d.operands, op.Spelled fmt w.compileUnit.linkObject := by
    rw [h.linkObject]
    exact hd.operands
  obtain ⟨r, e, hattrs⟩ := readAttributes_block_end
    (w := { w with
      reader := w.reader.setP (w.reader.p + d.code.bytes.length)
      entry := w.entry.setup off w.level a }) h.version h.is64 hd.forms hops hs hat.setP
  have hbody : readBody { w with
      reader := w.reader.setP (w.reader.p + d.code.bytes.length) } off a =
        .ok (.eof, { w with reader := r, entry := e }) := by
    rw [readBody, if_neg (fun hne => hne.1 h.filterTag), hattrs]
  exact ⟨_, readEntry_of_readBody htable hd h hbody⟩

/-- At an entry with a form that can't be handled `read_entry` ends the process. -/
theorem readEntry_not_handled {w : Walker} {off level : Nat} {s : List UInt8} {d : Die} {a : Abbrev}
    (htable : ∀ d ∈ table, d.Valid) (hd : d.Fits (Operand.Writable fmt lo) table a)
    (h : Ready fmt lo index table 0 w off level (d.encode fmt ++ s))
    (hno : ¬ ∀ op ∈ d.operands, op.Handled) : ∃ f, w.readEntry = .error f := by
  have hat := h.here
  rw [Die.encode, List.append_assoc] at hat
  have hops : ∀ op ∈ d.operands, op.Writable fmt w.compileUnit.linkObject := by
    rw [h.linkObject]
    exact hd.operands
  obtain ⟨f, hattrs⟩ := readAttributes_not_handled
    (w := { w with
      reader := w.reader.setP (w.reader.p + d.code.bytes.length)
      entry := w.entry.setup off w.level a }) h.version h.is64 hd.forms hops hno hat.setP
  refine ⟨f, ?_⟩
  rw [readEntry_eq_readBody htable hd h, readBody, if_neg (fun hne => hne.1 h.filterTag), hattrs]
  rfl

/-- **One call of `read_entry` reads one entry**, or skips it if the filter does not let it
through. -/
theorem readEntry_die {tag : Nat} {w : Walker} {off level : Nat} {s : List UInt8} {d : Die}
    {a : Abbrev} (htable : ∀ d ∈ table, d.Valid) (hd : d.Spelled fmt lo table a)
    (h : Ready fmt lo index table tag w off level (d.encode fmt ++ s)) (hs : 1 ≤ s.length) :
    ∃ w', Enumerates w
        ([d.viewWith table (Operand.readValue lo index) off level].filter (passes tag)) w' ∧
      Ready fmt lo index table tag w' (off + (d.encode fmt).length)
        (if a.children ≠ 0 then level + 1 else level) s := by
  have htag : (d.viewWith table (Operand.readValue lo index) off level).tag = a.tag := by
    rw [Die.viewWith, hd.lookup]
    rfl
  by_cases hfilter : tag ≠ 0 ∧ a.tag ≠ tag
  · -- the entry is skipped, and its generation with it
    have hroom := h.room
    rw [List.length_append] at hroom
    have hat := h.here
    rw [Die.encode, List.append_assoc] at hat
    have hops : ∀ op ∈ d.operands, op.Spelled fmt w.compileUnit.linkObject := by
      rw [h.linkObject]
      exact hd.operands
    have hskip := skipAttributes_operands
      (w := { w with
        reader := w.reader.setP (w.reader.p + d.code.bytes.length)
        entry := w.entry.partialSetup off w.level a }) h.version h.is64 hd.forms hops hs hat.setP
    have hbody : readBody { w with
        reader := w.reader.setP (w.reader.p + d.code.bytes.length) } off a =
        .ok (.filtered, { w with
          reader := w.reader.setP (w.reader.p + (d.encode fmt).length)
          entry := w.entry.partialSetup off w.level a }) := by
      rw [readBody, if_pos (by rw [h.filterTag]; exact hfilter), hskip, ← d.setP_encode]
    have hread := readEntry_of_readBody htable hd h hbody
    have hdrop : [d.viewWith table (Operand.readValue lo index) off level].filter (passes tag) =
        [] := by
      simp [passes, htag, hfilter.1, hfilter.2]
    rw [hdrop]
    exact ⟨_, .passed hread (.inr rfl) (.refl _), h.move (e := w.entry.partialSetup off w.level a)
      h.bounded (by simp only [Entry.partialSetup]; omega) _⟩
  · obtain ⟨w', hread, hview, -, -, hready⟩ := readEntry_read htable hd h (blocksInside_of_pos _ hs)
      hfilter
    have hpass : passes tag (d.viewWith table (Operand.readValue lo index) off level) = true := by
      by_cases hzero : tag = 0
      · simp [passes, hzero]
      · have : a.tag = tag := not_not.mp fun hne => hfilter ⟨hzero, hne⟩
        simp [passes, htag, this]
    rw [List.filter_cons_of_pos hpass, List.filter_nil, ← hview]
    exact ⟨w', .found hread (.refl _), hready⟩

/-- `read_entry` on a null entry, which ends a list of siblings. -/
theorem readEntry_zero {tag : Nat} {w : Walker} {off level : Nat} {s : List UInt8}
    (h : Ready fmt lo index table tag w off (level + 1) ([0] ++ s)) :
    w.readEntry = .ok (.eol, { w with
      reader := w.reader.setP (w.reader.p + 1)
      level := level }) := by
  rw [readEntry, Reads.zero.run h.here]
  dsimp only
  rw [if_pos rfl, if_neg (by rw [h.level]; exact Nat.succ_ne_zero _), h.level]
  rfl

/-- A null entry ends the children. -/
theorem readEntry_null {tag : Nat} {w : Walker} {off level : Nat} {s : List UInt8}
    (h : Ready fmt lo index table tag w off (level + 1) ([0] ++ s)) :
    ∃ w', Enumerates w [] w' ∧ Ready fmt lo index table tag w' (off + 1) level s := by
  have hroom := h.room
  rw [List.length_append] at hroom
  exact ⟨_, .passed (readEntry_zero h) (.inl rfl) (.refl _), h.move h.bounded (by omega) level⟩

/-- At the end of the unit there is no entry. -/
theorem readEntry_end {tag : Nat} {w : Walker} {off level : Nat}
    (h : Ready fmt lo index table tag w off level []) :
    ∃ w', w.readEntry = .ok (.eof, w') := by
  rw [readEntry, Read.readUleb128, h.here.rest_eq]
  exact ⟨_, rfl⟩

/-- Whether there are children is said by the abbreviation. -/
theorem Die.Fits.hasChildren_eq {P : Operand → Prop} {d : Die} {a : Abbrev}
    (h : d.Fits P table a) : d.hasChildren table = decide (a.children ≠ 0) := by
  rw [Die.hasChildren, h.lookup]

/-- **A list of siblings is enumerated with its children**, from the calls of `read_entry` for each
entry and each null entry. -/
theorem enumerates_dies {tag : Nat} (htable : ∀ d ∈ table, d.Valid) (ds : Dies)
    (hds : ds.Spelled fmt lo table) {w : Walker} {off level : Nat} {s : List UInt8}
    (h : Ready fmt lo index table tag w off level (ds.encode fmt table ++ s))
    (hs : 1 ≤ s.length) :
    ∃ w', Enumerates w ((ds.viewsWith fmt table (Operand.readValue lo index) off level).filter
        (passes tag)) w' ∧
      Ready fmt lo index table tag w' (off + (ds.encode fmt table).length) level s := by
  induction ds generalizing w off level s with
  | nil => exact ⟨w, .refl w, h⟩
  | cons d children siblings ihc ihs =>
      obtain ⟨⟨a, hd⟩, hnil, hchildren, hsiblings⟩ := hds
      have hhas := hd.hasChildren_eq
      rw [Dies.encode, List.append_assoc, List.append_assoc] at h
      obtain ⟨w₁, henum₁, h₁⟩ := readEntry_die htable hd h (by
        rw [List.length_append, List.length_append]
        omega)
      rw [Dies.viewsWith, ← List.singleton_append, List.filter_append, List.filter_append,
        Dies.encode]
      by_cases hc : a.children ≠ 0
      · have htrue : d.hasChildren table = true := by
          rw [hhas]
          exact decide_eq_true hc
        rw [if_pos htrue] at h₁ ⊢
        rw [if_pos hc, List.append_assoc] at h₁
        -- the children, the null entry that ends them, and the siblings
        obtain ⟨w₂, henum₂, h₂⟩ := ihc hchildren h₁ (by simp)
        obtain ⟨w₃, henum₃, h₃⟩ := readEntry_null h₂
        have hoff : off + (d.encode fmt).length + (children.encode fmt table).length + 1 =
            off + (d.encode fmt ++ (children.encode fmt table ++ [0])).length := by
          simp only [List.length_append, List.length_singleton]
          omega
        rw [hoff] at h₃
        obtain ⟨w₄, henum₄, h₄⟩ := ihs hsiblings h₃ hs
        refine ⟨w₄, henum₁.trans (henum₂.trans (henum₃.trans henum₄)), ?_⟩
        rw [← List.append_assoc (d.encode fmt), List.length_append, ← Nat.add_assoc]
        exact h₄
      · have hfalse : d.hasChildren table = false := by
          rw [hhas]
          exact decide_eq_false hc
        rw [hfalse, if_neg Bool.false_ne_true, List.nil_append] at h₁ ⊢
        rw [if_neg hc] at h₁
        rw [hnil hfalse, List.append_nil, List.length_append, ← Nat.add_assoc]
        obtain ⟨w₂, henum₂, h₂⟩ := ihs hsiblings h₁ hs
        exact ⟨w₂, henum₁.trans henum₂, h₂⟩

end

/-! ### The loops with enough fuel -/

/-- The walk ends with the unit. -/
theorem movePreorder_eof {w w' : Walker} (h : w.readEntry = .ok (.eof, w')) (n : Nat) :
    movePreorder (n + 1) w = .ok (false, w') := by
  rw [movePreorder, h]

/-- The walk stops at an entry. -/
theorem movePreorder_ok {w w' : Walker} (h : w.readEntry = .ok (.ok, w')) (n : Nat) :
    movePreorder (n + 1) w = .ok (true, w') := by
  rw [movePreorder, h]

/-- The walk passes over a null entry, or one of another tag. -/
theorem movePreorder_passed {w w' : Walker} {res : ReadEntryResult}
    (h : w.readEntry = .ok (res, w')) (hres : res = .eol ∨ res = .filtered) (n : Nat) :
    movePreorder (n + 1) w = movePreorder n w' := by
  rw [movePreorder, h]
  rcases hres with rfl | rfl
  · rfl
  · rfl

/-- More fuel does not change what was found. -/
theorem movePreorder_succ {n : Nat} {w : Walker} {res : Bool × Walker}
    (h : movePreorder n w = .ok res) : movePreorder (n + 1) w = .ok res := by
  induction n generalizing w with
  | zero => cases h
  | succ n ih =>
      cases hread : w.readEntry with
      | error f =>
          rw [movePreorder, hread] at h
          cases h
      | ok p =>
          obtain ⟨r, w'⟩ := p
          cases r with
          | eof =>
              rw [movePreorder_eof hread] at h ⊢
              exact h
          | ok =>
              rw [movePreorder_ok hread] at h ⊢
              exact h
          | eol =>
              rw [movePreorder_passed hread (.inl rfl)] at h ⊢
              exact ih h
          | filtered =>
              rw [movePreorder_passed hread (.inr rfl)] at h ⊢
              exact ih h

/-- A walk that ends found no entry, or one and then the others. -/
theorem preorder_eq_ok {n : Nat} {w : Walker} {vs : List EntryView}
    (h : preorder (n + 1) w = .ok vs) :
    (∃ w', movePreorder (n + 1) w = .ok (false, w') ∧ vs = []) ∨
      ∃ w' us, movePreorder (n + 1) w = .ok (true, w') ∧ preorder n w' = .ok us ∧
        vs = w'.view :: us := by
  rw [preorder] at h
  split at h
  · cases h
  next w' hmove =>
    cases h
    exact .inl ⟨w', hmove, rfl⟩
  next w' hmove =>
    split at h
    · cases h
    next us hrest =>
      cases h
      exact .inr ⟨w', us, hmove, hrest, rfl⟩

/-- One more step of fuel does not change the walk. -/
theorem preorder_succ {n : Nat} {w : Walker} {vs : List EntryView}
    (h : preorder n w = .ok vs) : preorder (n + 1) w = .ok vs := by
  induction n generalizing w vs with
  | zero => cases h
  | succ n ih =>
      rcases preorder_eq_ok h with ⟨w', hmove, rfl⟩ | ⟨w', us, hmove, hrest, rfl⟩
      · rw [preorder, movePreorder_succ hmove]
      · rw [preorder, movePreorder_succ hmove]
        dsimp only
        rw [ih hrest]

/-- More fuel does not change the walk. -/
theorem preorder_mono {n m : Nat} {w : Walker} {vs : List EntryView}
    (h : preorder n w = .ok vs) (hnm : n ≤ m) : preorder m w = .ok vs := by
  induction hnm with
  | refl => exact h
  | step _ ih => exact preorder_succ ih

/-- The entries found up to the end are those `move_preorder` returns. -/
theorem Enumerates.preorder {w w' w'' : Walker} {vs : List EntryView} (h : Enumerates w vs w')
    (hend : w'.readEntry = .ok (.eof, w'')) : ∃ n, Walker.preorder n w = .ok vs := by
  induction h with
  | refl w =>
      refine ⟨1, ?_⟩
      rw [Walker.preorder, movePreorder_eof hend]
  | found hread _ ih =>
      obtain ⟨n, hn⟩ := ih hend
      refine ⟨n + 1, ?_⟩
      rw [Walker.preorder, movePreorder_ok hread]
      dsimp only
      rw [hn]
  | @passed w w₁ w' vs res hread hres _ ih =>
      obtain ⟨n, hn⟩ := ih hend
      -- one more call of `read_entry` before the first entry, and so one more unit of fuel
      cases n with
      | zero => cases hn
      | succ n =>
          refine ⟨n + 2, ?_⟩
          rcases preorder_eq_ok hn with ⟨w₂, hmove, rfl⟩ | ⟨w₂, us, hmove, hrest, rfl⟩
          · rw [Walker.preorder, movePreorder_passed hread hres, hmove]
          · rw [Walker.preorder, movePreorder_passed hread hres, hmove]
            dsimp only
            rw [preorder_succ hrest]

/-! ### Forms that can't be handled -/

/-- The walk does not come to its end. -/
def Walker.Fails (w : Walker) : Prop := ∀ n us, Walker.preorder n w ≠ .ok us

/-- The process ends in a call of `read_entry`. -/
theorem fails_of_error {w : Walker} {f : Fatal} (h : w.readEntry = .error f) : w.Fails := by
  intro n us hwalk
  cases n with
  | zero => cases hwalk
  | succ n =>
      rw [Walker.preorder, movePreorder, h] at hwalk
      cases hwalk

/-- A walk that does not come to its end is no end of another. -/
theorem Enumerates.fails {w w' : Walker} {vs : List EntryView} (h : Enumerates w vs w')
    (hw' : w'.Fails) : w.Fails := by
  induction h with
  | refl w => exact hw'
  | found hread _ ih =>
      intro n us hwalk
      cases n with
      | zero => cases hwalk
      | succ n =>
          rcases preorder_eq_ok hwalk with ⟨w₂, hmove, -⟩ | ⟨w₂, us', hmove, hrest, -⟩
          · rw [movePreorder_ok hread] at hmove
            cases hmove
          · rw [movePreorder_ok hread] at hmove
            cases hmove
            exact ih hw' n us' hrest
  | passed hread hres _ ih =>
      intro n us hwalk
      cases n with
      | zero => cases hwalk
      | succ n =>
          refine ih hw' (n + 1) us ?_
          rcases preorder_eq_ok hwalk with ⟨w₂, hmove, rfl⟩ | ⟨w₂, us', hmove, hrest, rfl⟩
          · rw [movePreorder_passed hread hres] at hmove
            rw [Walker.preorder, movePreorder_succ hmove]
          · rw [movePreorder_passed hread hres] at hmove
            rw [Walker.preorder, movePreorder_succ hmove]
            dsimp only
            rw [hrest]

/-- An entry that can be written, in forms that can be handled. -/
theorem Die.Fits.spelled_of_handled {d : Die} {a : Abbrev}
    (h : d.Fits (Operand.Writable fmt lo) table a) (hd : ∀ op ∈ d.operands, op.Handled) :
    d.Spelled fmt lo table a :=
  ⟨h.lookup, h.forms, fun op hop => h.operands op hop (hd op hop)⟩

/-- Entries that can be written, in forms that can be handled. -/
theorem Dies.Fits.spelled_of_handled {ds : Dies} (h : ds.Fits table (Operand.Writable fmt lo))
    (hds : ds.Fits table Operand.Handled) : ds.Spelled fmt lo table := by
  induction ds with
  | nil => trivial
  | cons d children siblings ihc ihs =>
      obtain ⟨⟨a, hd⟩, hleaf, hchildren, hsiblings⟩ := h
      obtain ⟨⟨a', hd'⟩, -, hchildren', hsiblings'⟩ := hds
      exact ⟨⟨a, hd.spelled_of_handled hd'.operands⟩, hleaf, ihc hchildren hchildren',
        ihs hsiblings hsiblings'⟩

/-- The operands of a tree may have to satisfy less. -/
theorem Tree.Fits.mono {P Q : Operand → Prop} {tree : Tree} (h : tree.Fits table P)
    (hPQ : ∀ op, P op → Q op) : tree.Fits table Q := by
  obtain ⟨⟨a, hroot⟩, hleaf, hchildren⟩ := h
  exact ⟨⟨a, hroot.mono hPQ⟩, hleaf, hchildren.mono hPQ⟩

/-- A tree in forms that are read can be written. -/
theorem Tree.Fits.writable {tree : Tree} (h : tree.Spelled fmt lo table) :
    tree.Writable fmt lo table :=
  h.mono fun _ hop _ => hop

/-- The forms that are read can be handled. -/
theorem Tree.Fits.handled {tree : Tree} (h : tree.Spelled fmt lo table) : tree.Handled table :=
  h.mono fun _ hop => hop.handled

/-- A tree that can be written, in forms that can be handled, is in forms that are read. -/
theorem Tree.Fits.spelled_of_handled {tree : Tree} (h : tree.Writable fmt lo table)
    (h' : tree.Handled table) : tree.Spelled fmt lo table := by
  obtain ⟨⟨a, hroot⟩, hleaf, hchildren⟩ := h
  obtain ⟨⟨a', hroot'⟩, -, hchildren'⟩ := h'
  exact ⟨⟨a, hroot.spelled_of_handled hroot'.operands⟩, hleaf,
    hchildren.spelled_of_handled hchildren'⟩

/-- A walk over siblings and their children does not get past a form that can't be handled. -/
theorem fails_dies (htable : ∀ d ∈ table, d.Valid) (ds : Dies)
    (hds : ds.Fits table (Operand.Writable fmt lo)) (hno : ¬ ds.Fits table Operand.Handled)
    {w : Walker} {off level : Nat} {s : List UInt8}
    (h : Ready fmt lo index table 0 w off level (ds.encode fmt table ++ s)) (hs : 1 ≤ s.length) :
    w.Fails := by
  induction ds generalizing w off level s with
  | nil => exact absurd trivial hno
  | cons d children siblings ihc ihs =>
      obtain ⟨⟨a, hd⟩, hnil, hchildren, hsiblings⟩ := hds
      rw [Dies.encode, List.append_assoc, List.append_assoc] at h
      by_cases hops : ∀ op ∈ d.operands, op.Handled
      · have hspelled := hd.spelled_of_handled hops
        obtain ⟨w₁, henum₁, h₁⟩ := readEntry_die htable hspelled h (by
          rw [List.length_append, List.length_append]
          omega)
        refine henum₁.fails ?_
        have hrest : children.Fits table Operand.Handled →
            ¬ siblings.Fits table Operand.Handled := fun hc hs =>
          hno ⟨⟨a, hd.lookup, hd.forms, hops⟩, hnil, hc, hs⟩
        by_cases hc : a.children ≠ 0
        · have htrue : d.hasChildren table = true := by
            rw [hd.hasChildren_eq]
            exact decide_eq_true hc
          rw [if_pos htrue, if_pos hc, List.append_assoc] at h₁
          by_cases hbelow : children.Fits table Operand.Handled
          · -- the children are passed, and the null entry that ends them
            obtain ⟨w₂, henum₂, h₂⟩ := enumerates_dies htable children
              (hchildren.spelled_of_handled hbelow) h₁ (by simp)
            obtain ⟨w₃, henum₃, h₃⟩ := readEntry_null h₂
            exact henum₂.fails (henum₃.fails (ihs hsiblings (hrest hbelow) h₃ hs))
          · exact ihc hchildren hbelow h₁ (by simp)
        · have hfalse : d.hasChildren table = false := by
            rw [hd.hasChildren_eq]
            exact decide_eq_false hc
          rw [hfalse, if_neg Bool.false_ne_true, List.nil_append, if_neg hc] at h₁
          refine ihs hsiblings (hrest ?_) h₁ hs
          rw [hnil hfalse]
          trivial
      · obtain ⟨f, hread⟩ := readEntry_not_handled htable hd h hops
        exact fails_of_error hread

/-! ### Whole units -/

/-- A new walker over a unit that `read_header` and `read_abbrevs` have read. -/
theorem ready_ofUnit {u : Unit32} (lo : LinkObject) {table : List AbbrevDecl}
    (htable : ∀ d ∈ table, d.Valid) {r ar : Reader} {post apost : List UInt8}
    (hr : r.At (u.encode ++ post)) (hle : u.abbrevOffset ≤ ar.bytes.length)
    (har : ar.bytes.drop u.abbrevOffset = encodeTable table ++ apost) (index tag : Nat) :
    Ready u.fmt lo index table tag
      ((Walker.ofUnit ((u.loaded { index := index, linkObject := lo } r).readAbbrevs
        ar).1).setFilterTag tag) headerLength 0 u.body := by
  have hat := u.at_loaded { index := index, linkObject := lo } hr
  rw [u.encode_eq_header_append] at hat
  have hskip := (Reads.skip u.header).run hat
  rw [u.length_header] at hskip
  have hsize := u.length_lt
  have hcontents : CompileUnit.getContents
      ((u.loaded { index := index, linkObject := lo } r).readAbbrevs ar).1 =
      (u.loaded { index := index, linkObject := lo } r).reader.setP
        ((u.loaded { index := index, linkObject := lo } r).reader.p + headerLength) :=
    congrArg Prod.snd hskip
  have hoff : ((u.loaded { index := index, linkObject := lo } r).reader.setP
      ((u.loaded { index := index, linkObject := lo } r).reader.p + headerLength)).p =
      r.p + headerLength := by
    have hend := hat.end_eq
    have hlt := (u.loaded { index := index, linkObject := lo } r).reader.end_lt
    rw [List.length_append, u.length_header] at hend
    exact Reader.setP_p _ (by omega)
  have hat' := hat.setP
  rw [u.length_header] at hat'
  exact {
    version := rfl
    linkObject := rfl
    index := rfl
    getAbbrev := readAbbrevs_table htable rfl hle har
    is64 := by
      rw [u.not_is64]
      change (CompileUnit.getContents _).is64 = false
      rw [hcontents]
      rfl
    here := by
      change (CompileUnit.getContents _).At _
      rw [hcontents]
      exact hat'
    offset := by
      change (CompileUnit.getContents _).p = (CompileUnit.getContents _).base + _
      rw [hcontents]
      exact hoff
    level := rfl
    filterTag := rfl
    bounded := fun i => Nat.le_refl 0
    room := by
      change 0 + u.body.length < 2 ^ 32
      omega
    offset_lt := by
      rw [headerLength]
      omega }

section
variable {u : Unit32} {lo : LinkObject} {table : List AbbrevDecl} {tree : Tree}
  (htable : ∀ d ∈ table, d.Valid) {r ar : Reader} {post apost : List UInt8}
  (hr : r.At (u.encode ++ post)) (hle : u.abbrevOffset ≤ ar.bytes.length)
  (har : ar.bytes.drop u.abbrevOffset = encodeTable table ++ apost) (index : Nat)
include htable hr hle har

/-- The walk over a unit whose root has children. -/
theorem preorder_children (htree : tree.Spelled u.fmt lo table)
    (hchildren : tree.root.hasChildren table = true) (hbody : u.body = tree.body u.fmt table)
    (tag : Nat) :
    ∃ n, ∀ m ≥ n,
      ((Walker.ofUnit ((u.loaded { index := index, linkObject := lo } r).readAbbrevs
          ar).1).setFilterTag tag).preorder m =
        .ok ((tree.viewsWith u.fmt table (Operand.readValue lo index)).filter (passes tag)) := by
  have h₀ := ready_ofUnit lo htable hr hle har index tag
  rw [hbody, Tree.body] at h₀
  -- the root, its children, and the null entry that ends them
  obtain ⟨a, hroot⟩ := htree.root
  have hhas : a.children ≠ 0 := by
    rw [hroot.hasChildren_eq] at hchildren
    exact of_decide_eq_true hchildren
  obtain ⟨w₁, henum₁, h₁⟩ := readEntry_die htable hroot h₀ (by simp)
  rw [if_pos hhas] at h₁
  obtain ⟨w₂, henum₂, h₂⟩ := enumerates_dies htable tree.children htree.children h₁ (by simp)
  obtain ⟨w₃, henum₃, h₃⟩ := readEntry_null (s := []) h₂
  obtain ⟨w₄, hend⟩ := readEntry_end h₃
  obtain ⟨n, hn⟩ := (henum₁.trans (henum₂.trans henum₃)).preorder hend
  refine ⟨n, fun m hm => ?_⟩
  rw [preorder_mono hn hm, List.append_nil, ← List.filter_append]
  rfl

/-- The walk over a unit with a form that can't be handled. -/
theorem preorder_fails (htree : tree.Writable u.fmt lo table) (hno : ¬ tree.Handled table)
    (hbody : u.body = tree.encode u.fmt table) :
    (Walker.ofUnit ((u.loaded { index := index, linkObject := lo } r).readAbbrevs ar).1).Fails := by
  have h₀ := ready_ofUnit lo htable hr hle har index 0
  rw [hbody, Tree.encode] at h₀
  obtain ⟨a, hroot⟩ := htree.root
  by_cases hops : ∀ op ∈ tree.root.operands, op.Handled
  · have hbelow : ¬ tree.children.Fits table Operand.Handled := fun hc =>
      hno ⟨⟨a, hroot.lookup, hroot.forms, hops⟩, htree.leaf, hc⟩
    have hchildren : tree.root.hasChildren table = true := by
      by_contra hfalse
      rw [htree.leaf (Bool.eq_false_of_not_eq_true hfalse)] at hbelow
      exact hbelow trivial
    have hhas : a.children ≠ 0 := by
      rw [hroot.hasChildren_eq] at hchildren
      exact of_decide_eq_true hchildren
    rw [if_pos hchildren] at h₀
    obtain ⟨w₁, henum₁, h₁⟩ := readEntry_die htable (hroot.spelled_of_handled hops) h₀ (by simp)
    rw [if_pos hhas] at h₁
    exact henum₁.fails (fails_dies htable tree.children htree.children hbelow h₁ (by simp))
  · obtain ⟨f, hread⟩ := readEntry_not_handled htable hroot h₀ hops
    exact fails_of_error hread

/-- The walk over a unit with a root alone, which is read unless it ends with a block. -/
theorem preorder_leaf (htree : tree.Spelled u.fmt lo table)
    (hchildren : tree.root.hasChildren table = false) (hbody : u.body = tree.encode u.fmt table) :
    ∃ vs,
      (∃ n, ∀ m ≥ n, ((Walker.ofUnit ((u.loaded { index := index, linkObject := lo } r).readAbbrevs
          ar).1).setFilterTag 0).preorder m = .ok vs) ∧
        (BlocksInside u.fmt tree.root.operands [] ∧
            vs = tree.viewsWith u.fmt table (Operand.readValue lo index) ∨
          ¬ BlocksInside u.fmt tree.root.operands [] ∧ vs = []) := by
  have h₀ := ready_ofUnit lo htable hr hle har index 0
  rw [hbody, Tree.encode, hchildren, if_neg Bool.false_ne_true] at h₀
  obtain ⟨a, hroot⟩ := htree.root
  have hhas : a.children = 0 := by
    rw [hroot.hasChildren_eq] at hchildren
    exact not_not.mp (of_decide_eq_false hchildren)
  by_cases hblocks : BlocksInside u.fmt tree.root.operands []
  · obtain ⟨w₁, hread, hview, -, -, h₁⟩ := readEntry_read htable hroot h₀ hblocks
      (fun hne => hne.1 rfl)
    rw [if_neg (not_not.mpr hhas)] at h₁
    obtain ⟨w₂, hend⟩ := readEntry_end h₁
    obtain ⟨n, hn⟩ := (Enumerates.found hread (.refl _)).preorder hend
    refine ⟨_, ⟨n, fun m hm => preorder_mono hn hm⟩, .inl ⟨hblocks, ?_⟩⟩
    rw [Tree.viewsWith, htree.leaf hchildren, hview]
    rfl
  · obtain ⟨w₁, hend⟩ := readEntry_block_end htable hroot h₀ hblocks
    obtain ⟨n, hn⟩ := (Enumerates.refl _).preorder hend
    exact ⟨_, ⟨n, fun m hm => preorder_mono hn hm⟩, .inr ⟨hblocks, rfl⟩⟩

end

/-- **A walker returns the entries of the tree in preorder.**  After `read_header` and
`read_abbrevs`, `move_preorder` returns, up to the 0 at the end, exactly the entries of the unit's
tree, each with its offset, level, tag and attributes, or with a filter those with the tag. -/
theorem preorder_returns_tree {u : Unit32} {lo : LinkObject} {table : List AbbrevDecl} {tree : Tree}
    (htable : ∀ d ∈ table, d.Valid) (htree : tree.Valid u.fmt lo table)
    (hbody : u.body = tree.body u.fmt table) {r ar : Reader} {post apost : List UInt8}
    (hr : r.At (u.encode ++ post)) (hle : u.abbrevOffset ≤ ar.bytes.length)
    (har : ar.bytes.drop u.abbrevOffset = encodeTable table ++ apost) (index tag : Nat) :
    ∃ cu r', CompileUnit.readHeader { index := index, linkObject := lo } r = .ok (some cu, r') ∧
      ∃ n, ∀ m ≥ n,
        ((Walker.ofUnit (cu.readAbbrevs ar).1).setFilterTag tag).preorder m =
          .ok ((tree.views u.fmt lo index table).filter (passes tag)) := by
  have hwalk := preorder_children htable hr hle har index htree.spelled htree.hasChildren hbody tag
  rw [htree.viewsWith_readValue] at hwalk
  exact ⟨_, _, readHeader_unit32 u _ hr, hwalk⟩

/-- Abbreviations for a `DW_TAG_compile_unit` with children and for a `DW_TAG_subprogram` with a
`DW_AT_low_pc`. -/
def twoAbbrevs : List AbbrevDecl :=
  [{ code := .byte 1, tag := .byte 0x11, children := true, specs := [] },
    { code := .byte 2, tag := .byte 0x2e, children := false, specs := [(.byte 0x11, .byte 0x01)] }]

/-- A unit with one function, at 4096. -/
def oneFunction : Tree :=
  { root := { code := .byte 1, operands := [] }
    children := .cons { code := .byte 2, operands := [.addr 4096] } .nil .nil }

/-- Its unit in version 4. -/
def oneFunctionUnit : Unit32 :=
  .ofBody .four (oneFunction.body .four twoAbbrevs) Format.four_is64 (by decide)

/-- An object with this unit and its abbreviations. -/
def oneFunctionObject : LinkObject :=
  .ofSections 0 0 ⟨4096, oneFunctionUnit.encode, by decide⟩
    ⟨8192, encodeTable twoAbbrevs, by decide⟩

theorem twoAbbrevs_valid : ∀ d ∈ twoAbbrevs, d.Valid := by
  intro d hd
  rcases List.mem_cons.mp hd with rfl | hd
  · exact ⟨by decide, by decide, by decide, by decide, by decide⟩
  · obtain rfl := List.mem_singleton.mp hd
    exact ⟨by decide, by decide, by decide, by decide, by decide⟩

theorem oneFunction_valid : oneFunction.Valid Format.four oneFunctionObject twoAbbrevs where
  root := ⟨_, rfl, rfl, by simp [oneFunction]⟩
  hasChildren := by decide
  children := ⟨⟨_, rfl, rfl, by simp [Operand.Valid, Operand.Spelled, Operand.ReadBack]⟩,
    fun _ => rfl, trivial, trivial⟩

/-- Filtered by `DW_TAG_subprogram`, a walker returns the function of that unit. -/
theorem preorder_returns_tree_function :
    ∃ cu r', CompileUnit.readHeader { index := 0, linkObject := oneFunctionObject }
        (oneFunctionObject.getSection .info).getContents = .ok (some cu, r') ∧
      ∃ vs, (∃ n, ∀ m ≥ n, ((Walker.ofUnit (cu.readAbbrevs
          (oneFunctionObject.getSection .abbrevs).getContents).1).setFilterTag 0x2e).preorder m =
            .ok vs) ∧
        vs.map (fun v => (v.offset, v.level, v.tag, v.getAttribute 0x11)) =
          [(12, 1, 0x2e, some (.uint64 4096))] := by
  have hr := (oneFunctionObject.getSection .info).at_getContents.append_nil
  have har : (oneFunctionObject.getSection .abbrevs).getContents.bytes.drop
      oneFunctionUnit.abbrevOffset = encodeTable twoAbbrevs ++ [] := (List.append_nil _).symm
  obtain ⟨cu, r', hread, hwalk⟩ := preorder_returns_tree (u := oneFunctionUnit) twoAbbrevs_valid
    oneFunction_valid rfl hr (Nat.zero_le _) har 0 0x2e
  exact ⟨cu, r', hread, _, hwalk, by decide⟩

end NovaProva.Dwarf
