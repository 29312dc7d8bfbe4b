import NovaProva.Dwarf.AnyBytes
import NovaProva.Dwarf.Preorder
import Mathlib.Data.List.Forall2
import Mathlib.Logic.Relation

/-!
# Dwarf — Skipping and reading the same attributes

`read_attributes` and `skip_attributes` side by side over a list of attributes and any bytes, and a
walk filtered by a tag beside one that is not.  `agrees` is what the bytes have to be like for the
two to come to the same end.
-/

namespace NovaProva.Dwarf

/-! ### What has to be there -/

/-- Some operand of the list is cut off, where `skip_attributes` looks. -/
def cutOff (cu : CompileUnit) (is64 : Bool) : List Form → List UInt8 → Bool
  | [],      _ => false
  | f :: fs, s =>
      match passed cu is64 f s with
      | none   => true
      | some n => cutOff cu is64 fs (s.drop n)

/-- No operand that goes unlooked at is cut off and no block ends where the bytes do, unless an
operand behind it is cut off anyway. -/
def agrees (cu : CompileUnit) (is64 : Bool) : List Form → List UInt8 → Bool
  | [],      _ => true
  | f :: fs, s =>
      match operand cu is64 f s with
      | none   => !f.unchecked || cutOff cu is64 fs s
      | some n =>
          if f.isBlock ∧ n = s.length then cutOff cu is64 fs []
          else agrees cu is64 fs (s.drop n)

/-- Every `DW_FORM_strp` that is met has an offset of a string in `.debug_str`. -/
def StrpValid (cu : CompileUnit) (is64 : Bool) : List Form → List UInt8 → Prop
  | [],      _ => True
  | f :: fs, s =>
      ∀ n, operand cu is64 f s = some n →
        (f = .strp →
          ((cu.linkObject.getSection .str).offsetAsString (Bytes.leNat (s.take n))).isSome) ∧
        StrpValid cu is64 fs (s.drop n)

/-! ### Runs over a list of attributes -/

section
variable {cu : CompileUnit} {is64 : Bool} {s : List UInt8} {f : Form} {n : Nat}

theorem le_of_operand (h : operand cu is64 f s = some n) : n ≤ s.length := by
  have hfilter := (Option.filter_eq_some_iff.mp h).2
  simpa using hfilter

theorem le_of_passed (h : passed cu is64 f s = some n) : n ≤ s.length := by
  unfold passed at h
  split at h
  · split at h
    · cases h
      exact Nat.zero_le _
    · cases h
  next m hop =>
    cases h
    exact le_of_operand hop

theorem taken_of_none (h : operand cu is64 f s = none) : taken cu is64 f s = none := by
  unfold taken
  split
  · unfold operand at h
    rw [Option.filter_eq_none_iff] at h ⊢
    intro n hn
    have hlt := h n hn
    simp only [decide_eq_true_eq] at hlt ⊢
    omega
  · exact h

theorem taken_of_end (hop : operand cu is64 f s = some n) (h : f.isBlock ∧ n = s.length) :
    taken cu is64 f s = none := by
  have hlen := (Option.filter_eq_some_iff.mp hop).1
  rw [taken, if_pos h.1, hlen, h.2]
  simp

theorem taken_of_some (hop : operand cu is64 f s = some n) (h : ¬ (f.isBlock ∧ n = s.length)) :
    taken cu is64 f s = some n := by
  have hlen := (Option.filter_eq_some_iff.mp hop).1
  have hle := le_of_operand hop
  unfold taken
  split
  case isTrue hblock =>
    have hlt : n < s.length := by
      rcases Nat.lt_or_eq_of_le hle with hlt | heq
      · exact hlt
      · exact absurd ⟨hblock, heq⟩ h
    rw [hlen]
    simp [hlt]
  · exact hop

end

/-- The specification of an attribute of a form that can be handled. -/
def AttrSpec.Has (i : AttrSpec) (f : Form) : Prop := Form.ofCode i.form = some f ∧ f.Supported

namespace Walker

variable {specs : List AttrSpec} {forms : List Form} {s : List UInt8}

/-- One attribute of `skip_attributes`. -/
theorem skipAttributes_cons {i : AttrSpec} {f : Form} (is : List AttrSpec) (hi : i.Has f)
    (v : Walker) (h : v.reader.Inside s) :
    match passed v.compileUnit v.reader.is64 f s with
    | none   => ∃ v', skipAttributes (i :: is) v = .ok (.eof, v')
    | some n => skipAttributes (i :: is) v =
        skipAttributes is { v with reader := v.reader.setP (v.reader.p + n) } := by
  obtain ⟨x, hform, htakes⟩ := skipForm_takes v.compileUnit h hi.2
  have hbind : (Form.ofCode i.form).bind (skipForm v.compileUnit) = some x := by
    rw [hi.1]
    exact hform
  rw [skipAttributes, hbind]
  cases hp : passed v.compileUnit v.reader.is64 f s with
  | none =>
      rw [hp] at htakes
      have hnone : x v.reader = (none, (x v.reader).2) := Prod.ext htakes rfl
      dsimp only
      rw [hnone]
      exact ⟨_, rfl⟩
  | some n =>
      rw [hp] at htakes
      obtain ⟨u, hu⟩ := htakes
      dsimp only
      rw [hu]

/-- One attribute of `read_attributes`. -/
theorem readAttributes_cons {i : AttrSpec} {f : Form} (is : List AttrSpec) (hi : i.Has f)
    (w : Walker) (h : w.reader.Inside s)
    (hstrp : f = .strp → ∀ n, operand w.compileUnit w.reader.is64 f s = some n →
      ((w.compileUnit.linkObject.getSection .str).offsetAsString
        (Bytes.leNat (s.take n))).isSome) :
    match taken w.compileUnit w.reader.is64 f s with
    | none   => ∃ w', readAttributes (i :: is) w = .ok (.eof, w')
    | some n => ∃ e, readAttributes (i :: is) w =
        readAttributes is { w with reader := w.reader.setP (w.reader.p + n), entry := e } := by
  obtain ⟨x, hform, htakes⟩ := readForm_takes h hi.2 hstrp
  have hbind : (Form.ofCode i.form).bind (readForm w.compileUnit) = some x := by
    rw [hi.1]
    exact hform
  rw [readAttributes, hbind]
  cases ht : taken w.compileUnit w.reader.is64 f s with
  | none =>
      rw [ht] at htakes
      have hnone : x w.reader = (none, (x w.reader).2) := Prod.ext htakes rfl
      dsimp only
      rw [hnone]
      exact ⟨_, rfl⟩
  | some n =>
      rw [ht] at htakes
      obtain ⟨u, hu⟩ := htakes
      dsimp only
      rw [hu]
      exact ⟨_, rfl⟩

/-- `skip_attributes` fails if an operand is cut off where it looks, and only then. -/
theorem skipAttributes_status (hspecs : List.Forall₂ AttrSpec.Has specs forms) (v : Walker)
    (h : v.reader.Inside s) :
    ∃ v', skipAttributes specs v =
      .ok (if cutOff v.compileUnit v.reader.is64 forms s then .eof else .ok, v') ∧
      (cutOff v.compileUnit v.reader.is64 forms s = false → ∃ t, v'.reader.Inside t) := by
  induction hspecs generalizing v s with
  | nil => exact ⟨v, rfl, fun _ => ⟨s, h⟩⟩
  | @cons i f is fs hi _ ih =>
      have hstep := skipAttributes_cons is hi v h
      rw [cutOff]
      cases hp : passed v.compileUnit v.reader.is64 f s with
      | none =>
          rw [hp] at hstep
          obtain ⟨v', hv'⟩ := hstep
          exact ⟨v', hv', fun hne => nomatch hne⟩
      | some n =>
          rw [hp] at hstep
          rw [hstep]
          exact ih _ (h.setP (le_of_passed hp))

/-- What becomes of reading with `w` and skipping with `v`: the same status, and after `RE_OK` the
same reader. -/
def SameEnd (specs : List AttrSpec) (w v : Walker) : Prop :=
  ∃ res w' v', readAttributes specs w = .ok (res, w') ∧ skipAttributes specs v = .ok (res, v') ∧
    (res = .ok ∨ res = .eof) ∧ (res = .ok → w'.reader = v'.reader)

/-- Reading fails and skipping does not. -/
def Parts (specs : List AttrSpec) (w v : Walker) : Prop :=
  ∃ w' v', readAttributes specs w = .ok (.eof, w') ∧ skipAttributes specs v = .ok (.ok, v')

/-- Skipping ends as reading does, or not. -/
def Ends (specs : List AttrSpec) (w v : Walker) : Bool → Prop
  | true  => SameEnd specs w v
  | false => Parts specs w v

/-- Both go on with what is left of the list. -/
theorem Ends.congr {is : List AttrSpec} {w w₁ v v₁ : Walker} {b : Bool} (h : Ends is w₁ v₁ b)
    (hread : readAttributes specs w = readAttributes is w₁)
    (hskip : skipAttributes specs v = skipAttributes is v₁) : Ends specs w v b := by
  cases b with
  | true =>
      unfold Ends SameEnd at h ⊢
      rw [hread, hskip]
      exact h
  | false =>
      unfold Ends Parts at h ⊢
      rw [hread, hskip]
      exact h

/-- Once reading has failed, it is for skipping to fail too. -/
theorem end_of_cutOff {is : List AttrSpec} {fs : List Form} {w v u : Walker}
    (hread : ∃ w', readAttributes specs w = .ok (.eof, w'))
    (hskip : skipAttributes specs v = skipAttributes is u)
    (hspecs : List.Forall₂ AttrSpec.Has is fs) (h : u.reader.Inside s) :
    Ends specs w v (cutOff u.compileUnit u.reader.is64 fs s) := by
  obtain ⟨w', hw'⟩ := hread
  obtain ⟨v', hv', -⟩ := skipAttributes_status hspecs u h
  rw [← hskip] at hv'
  cases hcut : cutOff u.compileUnit u.reader.is64 fs s with
  | true =>
      rw [if_pos hcut] at hv'
      exact ⟨.eof, w', v', hw', hv', .inr rfl, fun hne => nomatch hne⟩
  | false =>
      rw [if_neg (by rw [hcut]; decide)] at hv'
      exact ⟨w', v', hw', hv'⟩

/-- Reading and skipping side by side.  While both go on they stand at the same byte, so what is
left to show is what happens where the first of them stops. -/
theorem attributes_run (hspecs : List.Forall₂ AttrSpec.Has specs forms) (w v : Walker)
    (hcu : v.compileUnit = w.compileUnit) (hr : v.reader = w.reader) (h : w.reader.Inside s)
    (hstrp : StrpValid w.compileUnit w.reader.is64 forms s) :
    Ends specs w v (agrees w.compileUnit w.reader.is64 forms s) := by
  induction hspecs generalizing w v s with
  | nil => exact ⟨.ok, w, v, rfl, rfl, .inl rfl, fun _ => hr.symm⟩
  | @cons i f is fs hi his ih =>
      have hread := readAttributes_cons is hi w h fun hf n hn => (hstrp n hn).1 hf
      have hskip := skipAttributes_cons is hi v (hr ▸ h)
      rw [hcu, hr] at hskip
      rw [agrees]
      cases hop : operand w.compileUnit w.reader.is64 f s with
      | none =>
          rw [taken_of_none hop] at hread
          rw [passed, hop] at hskip
          dsimp only at hread hskip ⊢
          by_cases hun : f.unchecked = true
          · rw [if_pos hun] at hskip
            dsimp only at hskip
            rw [Nat.add_zero, Reader.setP_self] at hskip
            rw [hun, Bool.not_true, Bool.false_or]
            have hcut := end_of_cutOff hread hskip his h
            exact hcut
          · rw [if_neg hun] at hskip
            obtain ⟨v', hv'⟩ := hskip
            obtain ⟨w', hw'⟩ := hread
            rw [Bool.not_eq_true] at hun
            rw [hun, Bool.not_false, Bool.true_or]
            exact ⟨.eof, w', v', hw', hv', .inr rfl, fun hne => nomatch hne⟩
      | some n =>
          rw [passed, hop] at hskip
          dsimp only at hskip ⊢
          have hle := le_of_operand hop
          by_cases hend : f.isBlock ∧ n = s.length
          · rw [taken_of_end hop hend] at hread
            have hin := h.setP hle
            rw [hend.2, List.drop_length, ← hend.2] at hin
            rw [if_pos hend]
            have hcut := end_of_cutOff hread hskip his hin
            exact hcut
          · rw [taken_of_some hop hend] at hread
            obtain ⟨e, he⟩ := hread
            have hrest := ih { w with reader := w.reader.setP (w.reader.p + n), entry := e }
              { v with compileUnit := w.compileUnit, reader := w.reader.setP (w.reader.p + n) }
              rfl rfl (h.setP hle) (hstrp n hop).2
            rw [if_neg hend]
            exact hrest.congr he hskip

/-! ### Walks with and without a filter -/

/-- What the entry before the walker has to be like. -/
def Alike (w : Walker) : Prop :=
  ∀ acode r a, Read.readUleb128 w.reader = (some acode, r) →
    w.compileUnit.getAbbrev acode = some a →
      ∃ forms, List.Forall₂ AttrSpec.Has a.attrSpecs forms ∧
        StrpValid w.compileUnit r.is64 forms r.rest ∧
        agrees w.compileUnit r.is64 forms r.rest = true

/-- A call of `read_entry` that does not end the walk. -/
def Next (w w' : Walker) : Prop := ∃ res, w.readEntry = .ok (res, w') ∧ res ≠ .eof

/-- Where, how deep and what: an entry but for its attributes. -/
def EntryView.heading (e : EntryView) : Nat × Nat × Nat := (e.offset, e.level, e.tag)

/-- Walkers at the same place of a unit. -/
structure Twin (w v : Walker) : Prop where
  compileUnit : v.compileUnit = w.compileUnit
  reader : v.reader = w.reader
  level : v.level = w.level

theorem readAttributes_frame {w w' : Walker} {res : ReadEntryResult}
    (h : readAttributes specs w = .ok (res, w')) :
    w'.level = w.level ∧ w'.filterTag = w.filterTag ∧ w'.entry.offset = w.entry.offset ∧
      w'.entry.level = w.entry.level ∧ w'.entry.abbrev? = w.entry.abbrev? := by
  induction specs generalizing w with
  | nil =>
      cases h
      exact ⟨rfl, rfl, rfl, rfl, rfl⟩
  | cons i is ih =>
      rw [readAttributes] at h
      split at h
      · cases h
      · split at h
        · cases h
          exact ⟨rfl, rfl, rfl, rfl, rfl⟩
        next value r _ =>
          obtain ⟨h₁, h₂, h₃, h₄, h₅⟩ := ih h
          obtain ⟨ho, hl, ha, -⟩ := w.entry.addAttribute_frame i.name value
          exact ⟨h₁, h₂, h₃.trans ho, h₄.trans hl, h₅.trans ha⟩

theorem skipAttributes_frame {v v' : Walker} {res : ReadEntryResult}
    (h : skipAttributes specs v = .ok (res, v')) :
    v'.level = v.level ∧ v'.filterTag = v.filterTag := by
  induction specs generalizing v with
  | nil =>
      cases h
      exact ⟨rfl, rfl⟩
  | cons i is ih =>
      rw [skipAttributes] at h
      split at h
      · cases h
      · split at h
        · cases h
          exact ⟨rfl, rfl⟩
        · obtain ⟨hl, hf⟩ := ih h
          exact ⟨hl, hf⟩

/-- Where the bytes agree, and where the walkers are then. -/
theorem attributes_of_agrees (hspecs : List.Forall₂ AttrSpec.Has specs forms) (w v : Walker)
    (hcu : v.compileUnit = w.compileUnit) (hr : v.reader = w.reader) (h : w.reader.Inside s)
    (hstrp : StrpValid w.compileUnit w.reader.is64 forms s)
    (hagrees : agrees w.compileUnit w.reader.is64 forms s = true) :
    ∃ res w' v', readAttributes specs w = .ok (res, w') ∧ skipAttributes specs v = .ok (res, v') ∧
      (res = .eof ∨ res = .ok ∧ v'.reader = w'.reader ∧ ∃ t, w'.reader.Inside t) := by
  have hrun := attributes_run hspecs w v hcu hr h hstrp
  rw [hagrees] at hrun
  obtain ⟨res, w', v', hread, hskip, hres, hsame⟩ := hrun
  refine ⟨res, w', v', hread, hskip, ?_⟩
  rcases hres with rfl | rfl
  · obtain ⟨v₁, hv₁, hin⟩ := skipAttributes_status hspecs v (hr ▸ h)
    cases hcut : cutOff v.compileUnit v.reader.is64 forms s with
    | true =>
        rw [hskip, if_pos hcut] at hv₁
        cases hv₁
    | false =>
        rw [hskip, if_neg (by rw [hcut]; decide)] at hv₁
        cases hv₁
        have hsame' := hsame rfl
        exact .inr ⟨rfl, hsame'.symm, hsame' ▸ hin hcut⟩
  · exact .inl rfl

/-- What a filter for `tag` makes of the result of reading an entry of the tag `t`. -/
def Filtered (tag t : Nat) (w' v' : Walker) (res' : ReadEntryResult) : Prop :=
  (t = tag ∧ res' = .ok ∧ v'.view.heading = w'.view.heading) ∨ (t ≠ tag ∧ res' = .filtered)

/-- The attributes of an entry, with and without the filter. -/
theorem readBody_twin {w v : Walker} {tag : Nat} {a : Abbrev} (off : Nat) (htag : tag ≠ 0)
    (hw : w.filterTag = 0) (hv : v.filterTag = tag) (htwin : Twin w v)
    (hspecs : List.Forall₂ AttrSpec.Has a.attrSpecs forms) (h : w.reader.Inside s)
    (hstrp : StrpValid w.compileUnit w.reader.is64 forms s)
    (hagrees : agrees w.compileUnit w.reader.is64 forms s = true) :
    ∃ res w' res' v', readBody w off a = .ok (res, w') ∧ readBody v off a = .ok (res', v') ∧
      (res = .eof ∧ res' = .eof ∨
        res = .ok ∧ Twin w' v' ∧ (∃ t, w'.reader.Inside t) ∧ w'.filterTag = 0 ∧
          v'.filterTag = tag ∧ w'.view.tag = a.tag ∧ Filtered tag a.tag w' v' res') := by
  have hcu := htwin.compileUnit
  have hr := htwin.reader
  obtain ⟨res, w', v₁, hread, hskip, hres⟩ := attributes_of_agrees hspecs
    { w with entry := w.entry.setup off w.level a }
    { v with entry := v.entry.partialSetup off v.level a } hcu hr h hstrp hagrees
  have hbody : readBody w off a = .ok (res, w') := by
    rw [readBody, if_neg (by simp [hw])]
    exact hread
  obtain ⟨hl, hf, ho, hel, ha⟩ := readAttributes_frame hread
  by_cases hsame : a.tag = tag
  · -- both read; both do what skipping would
    obtain ⟨res₂, v', v₂, hread₂, hskip₂, hres₂⟩ := attributes_of_agrees hspecs
      { v with entry := v.entry.setup off v.level a }
      { v with entry := v.entry.partialSetup off v.level a } rfl rfl (hr ▸ h)
      (by rw [hcu, hr]; exact hstrp) (by rw [hcu, hr]; exact hagrees)
    cases hskip.symm.trans hskip₂
    have hbody₂ : readBody v off a = .ok (res, v') := by
      rw [readBody, if_neg (by rw [hv]; exact fun hne => hne.2 hsame)]
      exact hread₂
    obtain ⟨hl₂, hf₂, ho₂, hel₂, ha₂⟩ := readAttributes_frame hread₂
    refine ⟨res, w', res, v', hbody, hbody₂, ?_⟩
    rcases hres with rfl | ⟨rfl, hr₁, hin⟩
    · exact .inl ⟨rfl, rfl⟩
    rcases hres₂ with hne | ⟨-, hr₂, -⟩
    · cases hne
    refine .inr ⟨rfl, ⟨?_, hr₂.symm.trans hr₁, ?_⟩, hin, hf.trans hw, hf₂.trans hv, ?_,
      .inl ⟨hsame, rfl, ?_⟩⟩
    · rw [readAttributes_compileUnit hread, readAttributes_compileUnit hread₂, hcu]
    · rw [hl, hl₂]
      exact htwin.level
    · simp [view, Entry.getTag, ha, Entry.setup]
    · simp [view, EntryView.heading, Entry.getTag, ha, ha₂, ho, ho₂, hel, hel₂, Entry.setup,
        htwin.level]
  · have hbody₂ : readBody v off a =
        .ok (if res = .ok then .filtered else res, v₁) := by
      rw [readBody, if_pos (by rw [hv]; exact ⟨htag, hsame⟩), hskip]
      rcases hres with rfl | ⟨rfl, -⟩
      · rfl
      · rfl
    obtain ⟨hl₂, hf₂⟩ := skipAttributes_frame hskip
    refine ⟨res, w', _, v₁, hbody, hbody₂, ?_⟩
    rcases hres with rfl | ⟨rfl, hr₁, hin⟩
    · exact .inl ⟨rfl, rfl⟩
    refine .inr ⟨rfl, ⟨?_, hr₁, ?_⟩, hin, hf.trans hw, hf₂.trans hv, ?_, .inr ⟨hsame, rfl⟩⟩
    · rw [readAttributes_compileUnit hread, skipAttributes_compileUnit hskip, hcu]
    · rw [hl, hl₂]
      exact htwin.level
    · simp [view, Entry.getTag, ha, Entry.setup]

/-- A walker without a filter and one with the filter `tag` at the same place. -/
structure Beside (tag : Nat) (w v : Walker) : Prop where
  twin : Twin w v
  inside : ∃ s, w.reader.Inside s
  unfiltered : w.filterTag = 0
  filtered : v.filterTag = tag

/-- A deeper level for the children of an entry. -/
theorem Beside.deeper {tag : Nat} {w v : Walker} (h : Beside tag w v) (n : Nat) :
    Beside tag { w with level := w.level + n } { v with level := v.level + n } where
  twin := ⟨h.twin.compileUnit, h.twin.reader, congrArg (· + n) h.twin.level⟩
  inside := h.inside
  unfiltered := h.unfiltered
  filtered := h.filtered

theorem inside_of_readUleb128 {r r' : Reader} {value : Nat} (h : r.Inside s)
    (hread : Read.readUleb128 r = (some value, r')) : ∃ t, r'.Inside t := by
  have htakes := Read.Takes.readUleb128 h
  cases hl : Read.lebLoop s Read.lebStart with
  | none =>
      rw [hl] at htakes
      have hnone : (Read.readUleb128 r).1 = none := htakes
      rw [hread] at hnone
      cases hnone
  | some l =>
      rw [hl] at htakes
      obtain ⟨value, hvalue⟩ := htakes
      cases hread.symm.trans hvalue
      exact ⟨_, h.setP (Read.Takes.lebStart_spec hl).2.1⟩

/-- **One call of `read_entry`, with and without the filter.** -/
theorem readEntry_beside {tag : Nat} {w v w' : Walker} {res : ReadEntryResult} (htag : tag ≠ 0)
    (h : Beside tag w v) (halike : w.Alike) (hread : w.readEntry = .ok (res, w')) :
    ∃ res' v', v.readEntry = .ok (res', v') ∧
      (res = .eof ∧ res' = .eof ∨
        Beside tag w' v' ∧
          (res = .eol ∧ res' = .eol ∨ res = .ok ∧ Filtered tag w'.view.tag w' v' res')) := by
  obtain ⟨s, hin⟩ := h.inside
  rw [readEntry] at hread ⊢
  rw [h.twin.reader, h.twin.compileUnit, h.twin.level]
  cases hleb : Read.readUleb128 w.reader with
  | mk acode? r =>
      cases acode? with
      | none =>
          rw [hleb] at hread
          cases hread
          exact ⟨_, _, rfl, .inl ⟨rfl, rfl⟩⟩
      | some acode =>
          rw [hleb] at hread
          dsimp only at hread ⊢
          have hr := inside_of_readUleb128 hin hleb
          by_cases hzero : acode = 0
          · rw [if_pos hzero] at hread ⊢
            by_cases hlevel : w.level = 0
            · rw [if_pos hlevel] at hread ⊢
              cases hread
              exact ⟨_, _, rfl, .inl ⟨rfl, rfl⟩⟩
            · rw [if_neg hlevel] at hread ⊢
              cases hread
              exact ⟨_, _, rfl, .inr ⟨⟨⟨rfl, rfl, rfl⟩, hr, h.unfiltered, h.filtered⟩,
                .inl ⟨rfl, rfl⟩⟩⟩
          · rw [if_neg hzero] at hread ⊢
            cases habbrev : w.compileUnit.getAbbrev acode with
            | none =>
                rw [habbrev] at hread
                cases hread
            | some a =>
                rw [habbrev] at hread
                dsimp only at hread ⊢
                obtain ⟨forms, hspecs, hstrp, hagrees⟩ := halike acode r a hleb habbrev
                obtain ⟨t, ht⟩ := hr
                rw [ht.at_.rest_eq] at hstrp hagrees
                obtain ⟨res₁, w₁, res₂, v₁, hw₁, hv₁, hend⟩ := readBody_twin
                  (w := { w with reader := r })
                  (v := { v with compileUnit := w.compileUnit, reader := r, level := w.level })
                  (a := a) w.reader.getOffset htag h.unfiltered h.filtered
                  ⟨rfl, rfl, rfl⟩ hspecs ht hstrp hagrees
                rw [hw₁] at hread
                rw [hv₁]
                dsimp only at hread ⊢
                rcases hend with ⟨rfl, rfl⟩ | ⟨rfl, htwin, hin₁, hf₁, hf₂, htag₁, hfilter⟩
                · cases hread
                  exact ⟨_, _, rfl, .inl ⟨rfl, rfl⟩⟩
                · have hbeside : Beside tag w₁ v₁ := ⟨htwin, hin₁, hf₁, hf₂⟩
                  cases hread
                  refine ⟨_, _, rfl, .inr ?_⟩
                  split
                  · exact ⟨hbeside.deeper 1, .inr ⟨rfl, htag₁.symm ▸ hfilter⟩⟩
                  · exact ⟨hbeside, .inr ⟨rfl, htag₁.symm ▸ hfilter⟩⟩

/-- **A walk with the filter sees the entries of the tag a walk without it sees.** -/
theorem enumerates_beside {tag : Nat} {w v w' : Walker} {es : List EntryView} (htag : tag ≠ 0)
    (hwalk : Enumerates w es w') (h : Beside tag w v)
    (halike : ∀ u, Relation.ReflTransGen Next w u → u.Alike) :
    ∃ fs v', Enumerates v fs v' ∧ Beside tag w' v' ∧
      fs.map EntryView.heading = (es.filter (·.tag = tag)).map EntryView.heading := by
  induction hwalk generalizing v with
  | refl w => exact ⟨[], v, .refl v, h, rfl⟩
  | @found w w₁ w' es hread _ ih =>
      have hnext : Next w w₁ := ⟨_, hread, fun hne => nomatch hne⟩
      obtain ⟨res', v₁, hv₁, hend⟩ := readEntry_beside htag h (halike w .refl) hread
      rcases hend with ⟨hne, -⟩ | ⟨hbeside, ⟨hne, -⟩ | ⟨-, hfilter⟩⟩
      · cases hne
      · cases hne
      obtain ⟨fs, v', hfs, hend, heq⟩ := ih hbeside fun u hu => halike u (.head hnext hu)
      rcases hfilter with ⟨hsame, rfl, hview⟩ | ⟨hother, rfl⟩
      · refine ⟨v₁.view :: fs, v', .found hv₁ hfs, hend, ?_⟩
        rw [List.filter_cons_of_pos (by simpa using hsame), List.map_cons, List.map_cons, heq,
          hview]
      · refine ⟨fs, v', .passed hv₁ (.inr rfl) hfs, hend, ?_⟩
        rw [List.filter_cons_of_neg (by simpa using hother), heq]
  | @passed w w₁ w' es res hread hres _ ih =>
      obtain ⟨res', v₁, hv₁, hend⟩ := readEntry_beside htag h (halike w .refl) hread
      rcases hend with ⟨rfl, -⟩ | ⟨hbeside, ⟨rfl, rfl⟩ | ⟨rfl, -⟩⟩
      · rcases hres with hne | hne
        · cases hne
        · cases hne
      · have hnext : Next w w₁ := ⟨_, hread, fun hne => nomatch hne⟩
        obtain ⟨fs, v', hfs, hend, heq⟩ := ih hbeside fun u hu => halike u (.head hnext hu)
        exact ⟨fs, v', .passed hv₁ (.inl rfl) hfs, hend, heq⟩
      · rcases hres with hne | hne
        · cases hne
        · cases hne

theorem Enumerates.reaches {w w' : Walker} {es : List EntryView} (h : Enumerates w es w') :
    Relation.ReflTransGen Next w w' := by
  induction h with
  | refl w => exact .refl
  | found hread _ ih => exact .head ⟨_, hread, fun hne => nomatch hne⟩ ih
  | passed hread hres _ ih =>
      refine .head ⟨_, hread, ?_⟩ ih
      rcases hres with rfl | rfl
      · exact fun hne => nomatch hne
      · exact fun hne => nomatch hne

/-- The calls of `read_entry` behind one of `move_preorder`. -/
theorem enumerates_of_movePreorder {n : Nat} {w w' : Walker} {found : Bool}
    (h : movePreorder n w = .ok (found, w')) :
    (found = true ∧ Enumerates w [w'.view] w') ∨
      (found = false ∧ ∃ u, Enumerates w [] u ∧ u.readEntry = .ok (.eof, w')) := by
  induction n generalizing w with
  | zero => cases h
  | succ n ih =>
      cases hread : w.readEntry with
      | error f =>
          rw [movePreorder, hread] at h
          cases h
      | ok p =>
          obtain ⟨res, w₁⟩ := p
          have hpassed : res = .eol ∨ res = .filtered →
              (found = true ∧ Enumerates w [w'.view] w') ∨
                (found = false ∧ ∃ u, Enumerates w [] u ∧ u.readEntry = .ok (.eof, w')) := by
            intro hres
            rw [movePreorder_passed hread hres] at h
            rcases ih h with ⟨hf, henum⟩ | ⟨hf, u, henum, hend⟩
            · exact .inl ⟨hf, .passed hread hres henum⟩
            · exact .inr ⟨hf, u, .passed hread hres henum, hend⟩
          cases res with
          | eof =>
              rw [movePreorder_eof hread] at h
              cases h
              exact .inr ⟨rfl, w, .refl w, hread⟩
          | ok =>
              rw [movePreorder_ok hread] at h
              cases h
              exact .inl ⟨rfl, .found hread (.refl _)⟩
          | eol => exact hpassed (.inl rfl)
          | filtered => exact hpassed (.inr rfl)

theorem enumerates_of_preorder {n : Nat} {w : Walker} {es : List EntryView}
    (h : preorder n w = .ok es) :
    ∃ w' w'', Enumerates w es w' ∧ w'.readEntry = .ok (.eof, w'') := by
  induction n generalizing w es with
  | zero => cases h
  | succ n ih =>
      rcases preorder_eq_ok h with ⟨w₁, hmove, rfl⟩ | ⟨w₁, us, hmove, hrest, rfl⟩
      · rcases enumerates_of_movePreorder hmove with ⟨hne, -⟩ | ⟨-, u, henum, hend⟩
        · cases hne
        · exact ⟨u, w₁, henum, hend⟩
      · rcases enumerates_of_movePreorder hmove with ⟨-, henum⟩ | ⟨hne, -⟩
        · obtain ⟨w', w'', hrest', hend⟩ := ih hrest
          exact ⟨w', w'', henum.trans hrest', hend⟩
        · cases hne

/-- `read_attributes` with `w` and `skip_attributes` with `v` return the same of `RE_OK` and
`RE_EOF`, and after `RE_OK` the readers are at the same offset. -/
def SameOutcome (specs : List AttrSpec) (w v : Walker) : Prop :=
  ∃ res w' v', readAttributes specs w = .ok (res, w') ∧ skipAttributes specs v = .ok (res, v') ∧
    (res = .ok ∨ res = .eof) ∧ (res = .ok → w'.reader.getOffset = v'.reader.getOffset)

/-- **Skipping and reading.**  From the same position the two come to the same outcome exactly if
no `DW_FORM_sec_offset` or `DW_FORM_ref_sig8` is cut off by the end of the unit and no block ends
there, or if an operand behind such a one is cut off as well.  Where that is so of every entry a
walk comes to, a walk filtered by a tag sees the entries of that tag, the same as without. -/
theorem skipAttributes_alike_iff (w : Walker) :
    (∀ (specs : List AttrSpec) (forms : List Form) (v : Walker) (s : List UInt8),
      List.Forall₂ AttrSpec.Has specs forms → v.compileUnit = w.compileUnit →
      v.reader = w.reader → w.reader.Inside s →
      StrpValid w.compileUnit w.reader.is64 forms s →
        (SameOutcome specs w v ↔ agrees w.compileUnit w.reader.is64 forms s = true)) ∧
    ∀ (tag n : Nat) (es : List EntryView), tag ≠ 0 → w.filterTag = 0 →
      (∃ s, w.reader.Inside s) → (∀ u, Relation.ReflTransGen Next w u → u.Alike) →
      w.preorder n = .ok es →
        ∃ m fs, (w.setFilterTag tag).preorder m = .ok fs ∧
          fs.map EntryView.heading = (es.filter (·.tag = tag)).map EntryView.heading := by
  refine ⟨?_, ?_⟩
  · intro specs forms v s hspecs hcu hr hin hstrp
    have hrun := attributes_run hspecs w v hcu hr hin hstrp
    cases hagrees : agrees w.compileUnit w.reader.is64 forms s with
    | true =>
        rw [hagrees] at hrun
        obtain ⟨res, w', v', hread, hskip, hres, hsame⟩ := hrun
        exact iff_of_true
          ⟨res, w', v', hread, hskip, hres, fun hok => congrArg Reader.getOffset (hsame hok)⟩ rfl
    | false =>
        rw [hagrees] at hrun
        obtain ⟨w', v', hread, hskip⟩ := hrun
        refine iff_of_false ?_ Bool.false_ne_true
        rintro ⟨res, w₁, v₁, hread₁, hskip₁, -, -⟩
        cases hread.symm.trans hread₁
        cases hskip.symm.trans hskip₁
  · intro tag n es htag hfilter hin halike hwalk
    obtain ⟨w', w'', henum, hend⟩ := enumerates_of_preorder hwalk
    have hbeside : Beside tag w (w.setFilterTag tag) := ⟨⟨rfl, rfl, rfl⟩, hin, hfilter, rfl⟩
    obtain ⟨fs, v', hfs, hbeside', heq⟩ := enumerates_beside htag henum hbeside halike
    have hlast : Relation.ReflTransGen Next w w' := Enumerates.reaches henum
    obtain ⟨res', v'', hv'', hres⟩ := readEntry_beside htag hbeside' (halike w' hlast) hend
    rcases hres with ⟨-, rfl⟩ | ⟨-, ⟨hne, -⟩ | ⟨hne, -⟩⟩
    · obtain ⟨m, hm⟩ := hfs.preorder hv''
      exact ⟨m, fs, hm, heq⟩
    · cases hne
    · cases hne

/-- A unit of one entry without children, whose only attribute is a `DW_AT_frame_base` in
`DW_FORM_exprloc`. -/
def blockUnit : CompileUnit :=
  { index := 0
    linkObject := oneFunctionObject
    version := 4
    abbrevs := [none, some { code := 1, tag := 0x11, children := 0, attrSpecs := [⟨0x40, 0x18⟩] }] }

theorem blockSpec_has : (⟨0x40, 0x18⟩ : AttrSpec).Has .exprloc :=
  ⟨by decide, ⟨by decide, by decide⟩⟩

/-- A walker over the bytes `bs` at 4096. -/
def overBytes (bs : List UInt8) (h : 4096 + bs.length < 2 ^ 64) : Walker :=
  { compileUnit := blockUnit, reader := .ofBuffer 4096 bs h }

theorem overBytes_inside (h : s.length < 2 ^ 32) (h' : 4096 + s.length < 2 ^ 64) :
    (overBytes s h').reader.Inside s where
  at_ := Reader.at_ofBuffer 4096 s h'
  room := by
    change 4096 + s.length + 2 ^ 32 ≤ 2 ^ 64
    omega

/-- An expression of one byte that the unit ends with: it can be skipped, but not read. -/
theorem skipAttributes_parts_block :
    ¬ ∀ (specs : List AttrSpec) (forms : List Form) (w v : Walker) (s : List UInt8),
      List.Forall₂ AttrSpec.Has specs forms → v.compileUnit = w.compileUnit →
      v.reader = w.reader → w.reader.Inside s →
      StrpValid w.compileUnit w.reader.is64 forms s → SameOutcome specs w v := by
  intro hall
  obtain ⟨res, w', v', hread, hskip, -⟩ := hall [⟨0x40, 0x18⟩] [.exprloc]
    (overBytes [1, 0x9c] (by decide)) (overBytes [1, 0x9c] (by decide)) [1, 0x9c]
    (.cons blockSpec_has .nil) rfl rfl (overBytes_inside (by decide) _)
    (fun n _ => ⟨fun hne => absurd hne (by decide), trivial⟩)
  have hread₁ : (readAttributes [⟨0x40, 0x18⟩] (overBytes [1, 0x9c] (by decide))).map (·.1) =
      .ok .eof := by decide +kernel
  have hskip₁ : (skipAttributes [⟨0x40, 0x18⟩] (overBytes [1, 0x9c] (by decide))).map (·.1) =
      .ok .ok := by decide +kernel
  rw [hread] at hread₁
  rw [hskip] at hskip₁
  cases hread₁
  cases hskip₁

/-- With a null entry behind it the same expression is read as it is skipped, and a walk for its
tag finds its entry. -/
theorem skipAttributes_alike_null :
    SameOutcome [⟨0x40, 0x18⟩] (overBytes [1, 0x9c, 0] (by decide))
        (overBytes [1, 0x9c, 0] (by decide)) ∧
      ∃ m fs, ((overBytes [1, 1, 0x9c, 0] (by decide)).setFilterTag 0x11).preorder m = .ok fs ∧
        fs.map EntryView.heading = [(0, 0, 0x11)] := by
  refine ⟨?_, ?_⟩
  · exact ((skipAttributes_alike_iff _).1 _ [.exprloc] _ [1, 0x9c, 0] (.cons blockSpec_has .nil)
      rfl rfl (overBytes_inside (by decide) _)
      (fun n _ => ⟨fun hne => absurd hne (by decide), trivial⟩)).mpr (by decide)
  · have hwalk : ∃ es, (overBytes [1, 1, 0x9c, 0] (by decide)).preorder 3 = .ok es ∧
        (es.filter (·.tag = 0x11)).map EntryView.heading = [(0, 0, 0x11)] :=
      ⟨_, rfl, by decide⟩
    obtain ⟨es, hes, hmap⟩ := hwalk
    have halike : ∀ u, Relation.ReflTransGen Next (overBytes [1, 1, 0x9c, 0] (by decide)) u →
        u.Alike := by
      have hsteps : ∃ w₁ w₂ r₁, (overBytes [1, 1, 0x9c, 0] (by decide)).readEntry =
            .ok (.ok, w₁) ∧ w₁.readEntry = .ok (.eof, w₂) ∧
          Read.readUleb128 w₁.reader = (some 0, r₁) ∧ w₁.compileUnit.getAbbrev 0 = none :=
        ⟨_, _, _, rfl, rfl, rfl, rfl⟩
      obtain ⟨w₁, w₂, r₁, hfirst, hlast, hnull, hnone⟩ := hsteps
      intro u hu
      rcases hu.cases_head with rfl | ⟨u₁, ⟨res, hnext, -⟩, hu₁⟩
      · intro acode r a hleb habbrev
        cases hleb
        cases habbrev
        exact ⟨[.exprloc], .cons blockSpec_has .nil,
          fun n _ => ⟨fun hne => absurd hne (by decide), trivial⟩, by decide⟩
      · cases hfirst.symm.trans hnext
        rcases hu₁.cases_head with rfl | ⟨u₂, ⟨res, hnext', hne⟩, -⟩
        · intro acode r a hleb habbrev
          cases hnull.symm.trans hleb
          cases hnone.symm.trans habbrev
        · cases hlast.symm.trans hnext'
          exact absurd rfl hne
    obtain ⟨m, fs, hfs, heq⟩ := (skipAttributes_alike_iff _).2 0x11 3 es (by decide) rfl
      ⟨_, overBytes_inside (s := [1, 1, 0x9c, 0]) (by decide) (by decide)⟩ halike hes
    exact ⟨m, fs, hfs, heq.trans hmap⟩

end Walker

end NovaProva.Dwarf
