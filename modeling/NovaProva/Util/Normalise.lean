import NovaProva.Util.Resolve

/-!
# Util — Normalised file names

`filename_t::normalise`: the components of a path are collected in the string `down`, from which a
`..` takes the last one off, and the `..`s that find none in the string `up`.

What it is for is `Filename.canonical`.  The code differs from that in two places.  A name behind a
first component of one byte is put right behind it, without a slash; and each `../` of `up` ends
with one, also where nothing follows.

* `normalise_canonical_iff`: when `normalise` returns the canonical form; it is then idempotent.
-/

namespace NovaProva.Filename

/-! ### The code -/

/-- A round of the loop over the parts; `s` is `up` and `down`. -/
def normalisePart (isAbs : Bool) (s : Filename × Filename) (part : Filename) :
    Filename × Filename :=
  if part = [dot] then s
  else if part = [dot, dot] then
    match findLastOf s.2 with
    | some i => (s.1, s.2.take i)
    | none   =>
        if s.2.length > 0 then (s.1, [])
        else if isAbs then s
        else (s.1 ++ [dot, dot, slash], s.2)
  else (s.1, (if s.2.length > 1 then s.2 ++ [slash] else s.2) ++ part)

/-- `normalise`: `down` and `up` after the loop over the components, put together. -/
def normalise (f : Filename) : Filename :=
  let s := f.parts.foldl (normalisePart f.isAbsolute) (if f.isAbsolute then [slash] else [], [])
  if s.2 = [] ∧ s.1 = [] then [dot] else s.1 ++ s.2

/-! ### The canonical form -/

/-- How many `..`s lead up, and the components that lead down from there. -/
@[ext]
structure Trail where
  ups : Nat
  names : List Filename
  deriving DecidableEq

namespace Trail

/-- A `..` cancels the last component; without one it is kept, but not behind a root. -/
def climb (isAbs : Bool) (t : Trail) : Trail :=
  if t.names = [] then if isAbs then t else { t with ups := t.ups + 1 }
  else { t with names := t.names.dropLast }

/-- A component is gone down to, or up from. -/
def push (isAbs : Bool) (t : Trail) (part : Filename) : Trail :=
  if part = [dot] then t
  else if part = dotdot then t.climb isAbs
  else { t with names := t.names ++ [part] }

/-- All components, one after the other. -/
def pushAll (isAbs : Bool) (t : Trail) (parts : List Filename) : Trail :=
  parts.foldl (push isAbs) t

/-- The components of the canonical name. -/
def components (t : Trail) : List Filename := List.replicate t.ups dotdot ++ t.names

end Trail

/-- What the parts of a path come to. -/
def trail (isAbs : Bool) (parts : List Filename) : Trail := Trail.pushAll isAbs ⟨0, []⟩ parts

/-- The canonical form of a path. -/
def canonical (f : Filename) : Filename :=
  let comps := (trail f.isAbsolute f.parts).components
  if f.isAbsolute = false ∧ comps = [] then [dot] else joinPath f.isAbsolute comps

/-! ### The condition -/

/-- The part is a name, and goes behind a single component of one byte. -/
def Merges (t : Trail) (part : Filename) : Prop :=
  (part ≠ [dot] ∧ part ≠ dotdot) ∧ ∃ c, t.names = [[c]]

/-- The parts take all components off, at some place. -/
def Returns (t : Trail) (parts : List Filename) : Prop :=
  ∃ mid rest, parts = mid ++ rest ∧ (t.pushAll true mid).names = []

/-- Behind a root, the parts do so behind each name that merges. -/
def MergesUndone (t : Trail) (parts : List Filename) : Prop :=
  ∀ pre part post, parts = pre ++ part :: post → Merges (t.pushAll true pre) part →
    Returns ((t.pushAll true pre).push true part) post

/-- No name merges, and in a relative path a name is left unless no `..` is; in an absolute path a
name may merge if the path returns to the root behind it. -/
def Normalisable (f : Filename) : Prop :=
  if f.isAbsolute then MergesUndone ⟨0, []⟩ f.parts
  else
    Each (fun pre part => ¬ Merges (trail false pre) part) f.parts ∧
      ((trail false f.parts).names = [] → (trail false f.parts).ups = 0)

/-! ### The code's trail -/

/-- What `down` becomes of the names `bs` with another. -/
def pushDown (bs : List Filename) (part : Filename) : List Filename :=
  if ([slash].intercalate bs).length > 1 then bs ++ [part] else [[slash].intercalate bs ++ part]

/-- A round of the loop, on what stands between the slashes. -/
def Trail.pushCode (isAbs : Bool) (t : Trail) (part : Filename) : Trail :=
  if part = [dot] then t
  else if part = dotdot then t.climb isAbs
  else { t with names := pushDown t.names part }

/-- Components that are names. -/
structure Ordinary (bs : List Filename) : Prop where
  pieces : Pieces slash bs
  nonempty : [] ∉ bs
  no_dot : [dot] ∉ bs
  no_dotdot : dotdot ∉ bs

/-- The names that stand in `down`. -/
structure Names (bs : List Filename) : Prop extends Ordinary bs where
  /-- a first name of one byte is the only one -/
  first : ∀ c b rest, bs ≠ [c] :: b :: rest

/-- `up` and `down`. -/
def Trail.strings (isAbs : Bool) (t : Trail) : Filename × Filename :=
  ((if isAbs then [slash] else []) ++ (List.replicate t.ups [dot, dot, slash]).flatten,
    [slash].intercalate t.names)

section
variable {bs : List Filename} {part : Filename} {t : Trail} {isAbs : Bool}

/-- Only of no components is nothing joined. -/
theorem intercalate_eq_nil_of_names (h : [] ∉ bs) : [slash].intercalate bs = [] ↔ bs = [] := by
  by_cases hnil : bs = []
  · simp [hnil]
  · rw [intercalate_eq_nil_iff hnil]
    refine iff_of_false (fun hone => h ?_) hnil
    rw [hone]
    exact List.mem_cons_self

/-- A `..` takes the last component of `down` away. -/
theorem normalisePart_dotdot_slash {u v : Filename} (up : Filename) (hv : slash ∉ v) :
    normalisePart isAbs (up, u ++ slash :: v) dotdot = (up, u) := by
  rw [normalisePart, if_neg (by decide), if_pos (show dotdot = [dot, dot] from rfl)]
  dsimp only
  rw [findLastOf_append u hv]
  simp

/-- A `..` takes the only component of `down` away. -/
theorem normalisePart_dotdot_none {v : Filename} (up : Filename) (hv : slash ∉ v) (hne : v ≠ []) :
    normalisePart isAbs (up, v) dotdot = (up, []) := by
  rw [normalisePart, if_neg (by decide), if_pos (show dotdot = [dot, dot] from rfl)]
  dsimp only
  rw [(findLastOf_eq_none_iff v).mpr hv]
  exact if_pos (List.length_pos_iff.mpr hne)

/-- A `..` goes up where `down` is empty, unless the name is absolute. -/
theorem normalisePart_dotdot_nil (up : Filename) :
    normalisePart isAbs (up, []) dotdot =
      if isAbs then (up, []) else (up ++ [dot, dot, slash], []) :=
  rfl

/-- So a `..` climbs, on the strings as on the trail. -/
theorem normalisePart_dotdot (hpieces : Pieces slash t.names) (hnamed : [] ∉ t.names) :
    normalisePart isAbs (t.strings isAbs) dotdot = (t.climb isAbs).strings isAbs := by
  obtain ⟨ups, names⟩ := t
  rw [Trail.climb]
  by_cases hnil : names = []
  · rw [if_pos hnil, hnil, Trail.strings, List.intercalate_nil, normalisePart_dotdot_nil]
    cases isAbs with
    | true => rfl
    | false => simp [Trail.strings, List.replicate_succ']
  · rw [if_neg hnil, Trail.strings]
    by_cases hlen : names.length = 1
    · obtain ⟨b, rfl⟩ := List.length_eq_one_iff.mp hlen
      rw [List.intercalate_singleton, normalisePart_dotdot_none _ (hpieces b List.mem_cons_self)]
      · rfl
      · exact fun hb => hnamed (hb ▸ List.mem_cons_self)
    · obtain ⟨init, last, hinit, rfl⟩ := exists_concat_of_length hnil hlen
      rw [intercalate_concat hinit, normalisePart_dotdot_slash _ (hpieces last (by simp))]
      simp [Trail.strings]

/-- **One turn of the loop** is a step of the trail. -/
theorem normalisePart_strings (hpieces : Pieces slash t.names) (hnamed : [] ∉ t.names)
    (part : Filename) :
    normalisePart isAbs (t.strings isAbs) part = (t.pushCode isAbs part).strings isAbs := by
  by_cases hdot : part = [dot]
  · rw [normalisePart, if_pos hdot, Trail.pushCode, if_pos hdot]
  by_cases hdd : part = dotdot
  · rw [Trail.pushCode, if_neg hdot, if_pos hdd, hdd]
    exact normalisePart_dotdot hpieces hnamed
  · rw [normalisePart, if_neg hdot, if_neg (show ¬ part = [dot, dot] from hdd), Trail.pushCode,
      if_neg hdot, if_neg hdd]
    refine Prod.ext rfl ?_
    show (if _ then _ else _) ++ part = [slash].intercalate (pushDown t.names part)
    rw [pushDown]
    by_cases hlen : ([slash].intercalate t.names).length > 1
    · have hne : t.names ≠ [] := fun hnil => by
        rw [hnil] at hlen
        cases hlen
      rw [if_pos hlen, if_pos (show (t.strings isAbs).2.length > 1 from hlen),
        intercalate_concat hne, List.append_assoc]
      rfl
    · rw [if_neg hlen, if_neg (show ¬ (t.strings isAbs).2.length > 1 from hlen),
        List.intercalate_singleton]
      rfl

theorem ordinary_nil : Ordinary [] :=
  ⟨List.forall_mem_nil _, List.not_mem_nil, List.not_mem_nil, List.not_mem_nil⟩

theorem Ordinary.dropLast (h : Ordinary bs) : Ordinary bs.dropLast where
  pieces := h.pieces.dropLast
  nonempty := fun hmem => h.nonempty (List.dropLast_subset bs hmem)
  no_dot := fun hmem => h.no_dot (List.dropLast_subset bs hmem)
  no_dotdot := fun hmem => h.no_dotdot (List.dropLast_subset bs hmem)

theorem Ordinary.concat (h : Ordinary bs) (hslash : slash ∉ part) (hne : part ≠ [])
    (hdot : part ≠ [dot]) (hdd : part ≠ dotdot) : Ordinary (bs ++ [part]) where
  pieces := h.pieces.concat hslash
  nonempty := notMem_concat h.nonempty hne
  no_dot := notMem_concat h.no_dot hdot
  no_dotdot := notMem_concat h.no_dotdot hdd

/-- A step keeps the names ordinary. -/
theorem Ordinary.push (h : Ordinary t.names) (hslash : slash ∉ part) (hne : part ≠ [])
    (isAbs : Bool) : Ordinary (t.push isAbs part).names := by
  rw [Trail.push]
  split
  · exact h
  case isFalse hdot =>
    split
    · rw [Trail.climb]
      split
      · split
        · exact h
        · exact h
      · exact h.dropLast
    case isFalse hdd =>
      exact h.concat hslash hne hdot hdd

theorem names_nil : Names [] := ⟨ordinary_nil, fun _ _ _ h => by cases h⟩

/-- One name. -/
theorem names_singleton (hslash : slash ∉ part) (hne : part ≠ []) (hdot : part ≠ [dot])
    (hdd : part ≠ dotdot) : Names [part] :=
  ⟨ordinary_nil.concat hslash hne hdot hdd, fun _ _ _ h => by cases h⟩

theorem Names.dropLast (h : Names bs) : Names bs.dropLast := by
  refine ⟨h.toOrdinary.dropLast, fun c b rest heq => ?_⟩
  have hne : bs ≠ [] := fun hnil => by rw [hnil] at heq; cases heq
  have hbs := List.dropLast_concat_getLast hne
  rw [heq] at hbs
  exact h.first c b (rest ++ [bs.getLast hne]) hbs.symm

/-- Climbing leaves fewer names. -/
theorem Names.climb (h : Names t.names) (isAbs : Bool) : Names (t.climb isAbs).names := by
  rw [Trail.climb]
  split
  · split
    · exact h
    · exact h
  · exact h.dropLast

/-- `down` is short where it is empty or one byte. -/
theorem names_short (h : [] ∉ bs) (hshort : ¬ ([slash].intercalate bs).length > 1) :
    bs = [] ∨ ∃ c, bs = [[c]] := by
  by_cases hnil : bs = []
  · exact .inl hnil
  · exact .inr (eq_singleton_of_short hnil (fun hhead => h (List.mem_of_head? hhead)) hshort)

/-- Behind a name of one character there is no slash. -/
theorem pushDown_singleton (c : UInt8) (part : Filename) : pushDown [[c]] part = [c :: part] := rfl

/-- Behind anything but one byte a name is another name. -/
theorem pushDown_eq (h : [] ∉ bs) (hone : ∀ c, bs ≠ [[c]]) (part : Filename) :
    pushDown bs part = bs ++ [part] := by
  by_cases hlen : ([slash].intercalate bs).length > 1
  · rw [pushDown, if_pos hlen]
  · rcases names_short h hlen with rfl | ⟨c, rfl⟩
    · rfl
    · exact absurd rfl (hone c)

/-- Going down keeps the names ordinary, also where two run together. -/
theorem Names.pushDown (h : Names bs) (hslash : slash ∉ part) (hne : part ≠ [])
    (hdot : part ≠ [dot]) (hdd : part ≠ dotdot) : Names (pushDown bs part) := by
  by_cases hone : ∃ c, bs = [[c]]
  · obtain ⟨c, rfl⟩ := hone
    rw [pushDown_singleton]
    have hc : c ≠ dot := fun hc => h.no_dot (hc ▸ List.mem_cons_self)
    refine names_singleton ?_ (List.cons_ne_nil _ _) (fun heq => ?_) fun heq => ?_
    · intro hmem
      rcases List.mem_cons.mp hmem with rfl | hmem
      · exact h.pieces [slash] List.mem_cons_self List.mem_cons_self
      · exact hslash hmem
    · exact hne (List.cons.inj heq).2
    · exact hc (List.cons.inj heq).1
  · have hone : ∀ c, bs ≠ [[c]] := fun c hc => hone ⟨c, hc⟩
    rw [pushDown_eq h.nonempty hone]
    refine ⟨h.toOrdinary.concat hslash hne hdot hdd, fun c b rest heq => ?_⟩
    rcases bs with - | ⟨b', - | ⟨b'', bs⟩⟩
    · cases heq
    · exact hone c (by rw [(List.cons.inj heq).1])
    · obtain ⟨hb', hrest⟩ := List.cons.inj heq
      obtain ⟨hb'', -⟩ := List.cons.inj hrest
      exact h.first c b bs (by rw [hb', hb''])

/-- A step of the code's keeps them ordinary. -/
theorem Names.pushCode (h : Names t.names) (hslash : slash ∉ part) (hne : part ≠ [])
    (isAbs : Bool) : Names (t.pushCode isAbs part).names := by
  rw [Trail.pushCode]
  split
  · exact h
  case isFalse hdot =>
    split
    · exact h.climb isAbs
    case isFalse hdd =>
      exact h.pushDown hslash hne hdot hdd

/-- A component that is a name is gone down to. -/
theorem push_name (hdot : part ≠ [dot]) (hdd : part ≠ dotdot) (isAbs : Bool) (t : Trail) :
    t.push isAbs part = { t with names := t.names ++ [part] } := by
  rw [Trail.push, if_neg hdot, if_neg hdd]

/-- The code goes down to a name in its own way. -/
theorem pushCode_name (hdot : part ≠ [dot]) (hdd : part ≠ dotdot) (isAbs : Bool) (t : Trail) :
    t.pushCode isAbs part = { t with names := Filename.pushDown t.names part } := by
  rw [Trail.pushCode, if_neg hdot, if_neg hdd]

/-- Where no name merges the code does what it should. -/
theorem pushCode_eq_push (h : Names t.names) (hno : ¬ Merges t part) (isAbs : Bool) :
    t.pushCode isAbs part = t.push isAbs part := by
  by_cases hdot : part = [dot]
  · rw [Trail.pushCode, Trail.push, if_pos hdot, if_pos hdot]
  by_cases hdd : part = dotdot
  · rw [Trail.pushCode, Trail.push, if_neg hdot, if_neg hdot, if_pos hdd, if_pos hdd]
  · rw [pushCode_name hdot hdd, push_name hdot hdd,
      pushDown_eq h.nonempty fun c hc => hno ⟨⟨hdot, hdd⟩, c, hc⟩]

/-- Going down adds one name at most. -/
theorem length_pushDown_le (h : [] ∉ bs) (part : Filename) :
    (Filename.pushDown bs part).length ≤ bs.length + 1 := by
  by_cases hone : ∃ c, bs = [[c]]
  · obtain ⟨c, rfl⟩ := hone
    rw [pushDown_singleton]
    exact Nat.le_succ 1
  · rw [pushDown_eq h (fun c hc => hone ⟨c, hc⟩), List.length_append]
    exact Nat.le_refl _

end

/-! ### Behind a root -/

section
variable {d t : Trail} {part : Filename} {parts : List Filename}

/-- The way comes back at the next component or later. -/
theorem returns_cons : Returns t (part :: parts) ↔
    t.names = [] ∨ Returns (t.push true part) parts := by
  constructor
  · rintro ⟨mid, rest, heq, hnil⟩
    cases mid with
    | nil => exact .inl hnil
    | cons p mid =>
        obtain ⟨rfl, rfl⟩ := List.cons.inj heq
        exact .inr ⟨mid, rest, rfl, hnil⟩
  · rintro (hnil | ⟨mid, rest, rfl, hnil⟩)
    · exact ⟨[], part :: parts, rfl, hnil⟩
    · exact ⟨part :: mid, rest, rfl, hnil⟩

theorem mergesUndone_nil (t : Trail) : MergesUndone t [] := by
  intro pre part post heq
  cases pre <;> cases heq

/-- A merge has to be undone behind the component that makes it. -/
theorem mergesUndone_cons : MergesUndone t (part :: parts) ↔
    (Merges t part → Returns (t.push true part) parts) ∧
      MergesUndone (t.push true part) parts := by
  constructor
  · intro h
    refine ⟨h [] part parts rfl, fun pre p post heq => ?_⟩
    exact h (part :: pre) p post (by rw [heq]; rfl)
  · rintro ⟨hfirst, hrest⟩ pre p post heq
    cases pre with
    | nil =>
        obtain ⟨rfl, rfl⟩ := List.cons.inj heq
        exact hfirst
    | cons q pre =>
        obtain ⟨rfl, rfl⟩ := List.cons.inj heq
        exact hrest pre p post rfl

/-- With fewer names in `down` than there are components there stay fewer, up to the root. -/
theorem pushCode_fewer (hd : [] ∉ d.names) (hups : d.ups = t.ups)
    (hlt : d.names.length < t.names.length) (part : Filename) :
    (d.pushCode true part).ups = (t.push true part).ups ∧
      ((d.pushCode true part).names = [] ∧ (t.push true part).names = [] ∨
        (d.pushCode true part).names.length < (t.push true part).names.length) := by
  by_cases hdot : part = [dot]
  · rw [Trail.pushCode, Trail.push, if_pos hdot, if_pos hdot]
    exact ⟨hups, .inr hlt⟩
  by_cases hdd : part = dotdot
  · have hne : t.names ≠ [] := fun hnil => by rw [hnil] at hlt; exact Nat.not_lt_zero _ hlt
    rw [Trail.pushCode, Trail.push, if_neg hdot, if_neg hdot, if_pos hdd, if_pos hdd, Trail.climb,
      Trail.climb, if_neg hne]
    by_cases hnil : d.names = []
    · rw [if_pos hnil]
      refine ⟨hups, ?_⟩
      by_cases hone : t.names.length = 1
      · obtain ⟨b, hb⟩ := List.length_eq_one_iff.mp hone
        exact .inl ⟨hnil, by rw [hb]; rfl⟩
      · refine .inr ?_
        show d.names.length < t.names.dropLast.length
        rw [List.length_dropLast, hnil]
        rw [hnil] at hlt
        have hpos : 0 < t.names.length := hlt
        show 0 < t.names.length - 1
        omega
    · rw [if_neg hnil]
      refine ⟨hups, .inr ?_⟩
      show d.names.dropLast.length < t.names.dropLast.length
      have hpos := List.length_pos_iff.mpr hnil
      rw [List.length_dropLast, List.length_dropLast]
      omega
  · rw [pushCode_name hdot hdd, push_name hdot hdd]
    refine ⟨hups, .inr ?_⟩
    show (pushDown d.names part).length < (t.names ++ [part]).length
    have hle := length_pushDown_le hd part
    rw [List.length_append, List.length_singleton]
    omega

/-- **Behind a root** the code comes to the same components if the path returns there behind each
name that merges; with fewer names it does so where the path returns at all. -/
theorem foldl_pushCode_root (hslash : Pieces slash parts) (hne : [] ∉ parts) :
    (∀ t : Trail, Names t.names →
      (parts.foldl (Trail.pushCode true) t = t.pushAll true parts ↔ MergesUndone t parts)) ∧
    ∀ d t : Trail, Names d.names → d.ups = t.ups → d.names.length < t.names.length →
      (parts.foldl (Trail.pushCode true) d = t.pushAll true parts ↔
        Returns t parts ∧ MergesUndone t parts) := by
  induction parts with
  | nil =>
      refine ⟨fun t _ => iff_of_true rfl (mergesUndone_nil t), fun d t _ _ hlt => ?_⟩
      refine iff_of_false (fun heq => ?_) ?_
      · rw [show d = t from heq] at hlt
        exact Nat.lt_irrefl _ hlt
      · rintro ⟨⟨mid, rest, heq, hnil⟩, -⟩
        obtain ⟨rfl, -⟩ := List.append_eq_nil_iff.mp heq.symm
        rw [show t.names = [] from hnil] at hlt
        exact Nat.not_lt_zero _ hlt
  | cons part parts ih =>
      obtain ⟨hpart, hparts⟩ := not_or.mp (mt List.mem_cons.mpr hne)
      have hslash' : slash ∉ part := hslash part List.mem_cons_self
      obtain ⟨hsame, hfewer⟩ := ih (hslash.of_subset (List.subset_cons_self part parts)) hparts
      refine ⟨fun t ht => ?_, fun d t hd hups hlt => ?_⟩
      · have hnext := ht.pushCode hslash' (Ne.symm hpart) true
        rw [mergesUndone_cons]
        show parts.foldl _ (t.pushCode true part) = (t.push true part).pushAll true parts ↔ _
        by_cases hmerges : Merges t part
        · obtain ⟨⟨hdot, hdd⟩, c, hc⟩ := hmerges
          rw [hfewer _ (t.push true part) hnext, imp_iff_right ⟨⟨hdot, hdd⟩, c, hc⟩]
          · rw [pushCode_name hdot hdd, push_name hdot hdd]
          · rw [pushCode_name hdot hdd, push_name hdot hdd]
            show (pushDown t.names part).length < (t.names ++ [part]).length
            rw [hc]
            exact Nat.lt_succ_self 1
        · rw [pushCode_eq_push ht hmerges] at hnext ⊢
          rw [hsame _ hnext]
          exact (and_iff_right fun h => absurd h hmerges).symm
      · have hnext := hd.pushCode hslash' (Ne.symm hpart) true
        have hnil : t.names ≠ [] := fun hnil => by rw [hnil] at hlt; exact Nat.not_lt_zero _ hlt
        obtain ⟨hups', hor⟩ := pushCode_fewer hd.nonempty hups hlt part
        rw [mergesUndone_cons, returns_cons, or_iff_right hnil]
        show parts.foldl _ (d.pushCode true part) = (t.push true part).pushAll true parts ↔ _
        rcases hor with ⟨hdnil, htnil⟩ | hlt'
        · have heq : d.pushCode true part = t.push true part :=
            Trail.ext hups' (hdnil.trans htnil.symm)
          have hreturns : Returns (t.push true part) parts := ⟨[], parts, rfl, htnil⟩
          rw [heq] at hnext ⊢
          rw [hsame _ hnext, and_iff_right hreturns]
          exact (and_iff_right fun _ => hreturns).symm
        · rw [hfewer _ _ hnext hups' hlt']
          constructor
          · rintro ⟨hreturns, hundone⟩
            exact ⟨hreturns, fun _ => hreturns, hundone⟩
          · rintro ⟨hreturns, -, hundone⟩
            exact ⟨hreturns, hundone⟩

end

/-! ### Relative paths -/

section
variable {d t : Trail} {part : Filename} {parts : List Filename}

/-- The code has come further up, or has fewer names. -/
def Trail.Above (d t : Trail) : Prop :=
  t.ups ≤ d.ups ∧ d.names.length + t.ups < t.names.length + d.ups

/-- What is above is another place. -/
theorem Trail.Above.ne (h : d.Above t) : d ≠ t := by
  rintro rfl
  exact Nat.lt_irrefl _ h.2

/-- What is above stays above by a step up. -/
theorem Trail.Above.climb (h : d.Above t) : (d.climb false).Above (t.climb false) := by
  obtain ⟨hle, hlt⟩ := h
  obtain ⟨k, bs⟩ := d
  obtain ⟨n, cs⟩ := t
  simp only [Trail.Above, Trail.climb]
  rcases bs.eq_nil_or_concat with rfl | ⟨bs, b, rfl⟩ <;>
    rcases cs.eq_nil_or_concat with rfl | ⟨cs, c, rfl⟩ <;> simp at hle hlt ⊢ <;> omega

/-- What is above stays above by any component. -/
theorem Trail.Above.next (h : d.Above t) (hd : [] ∉ d.names) (part : Filename) :
    (d.pushCode false part).Above (t.push false part) := by
  by_cases hdot : part = [dot]
  · rw [Trail.pushCode, Trail.push, if_pos hdot, if_pos hdot]
    exact h
  by_cases hdd : part = dotdot
  · rw [Trail.pushCode, Trail.push, if_neg hdot, if_neg hdot, if_pos hdd, if_pos hdd]
    exact h.climb
  · rw [pushCode_name hdot hdd, push_name hdot hdd]
    have hle := length_pushDown_le hd part
    obtain ⟨hups, hlt⟩ := h
    refine ⟨hups, ?_⟩
    show (pushDown d.names part).length + t.ups < (t.names ++ [part]).length + d.ups
    rw [List.length_append, List.length_singleton]
    omega

/-- A name that merges. -/
theorem above_of_merges (h : Merges t part) :
    (t.pushCode false part).Above (t.push false part) := by
  obtain ⟨⟨hdot, hdd⟩, c, hc⟩ := h
  rw [pushCode_name hdot hdd, push_name hdot hdd, hc]
  exact ⟨Nat.le_refl _, Nat.add_lt_add_right (Nat.lt_succ_self 1) _⟩

/-- What is above stays above by any number of components. -/
theorem Trail.Above.foldl (h : d.Above t) (hd : Names d.names) (hslash : Pieces slash parts)
    (hne : [] ∉ parts) : (parts.foldl (Trail.pushCode false) d).Above (t.pushAll false parts) := by
  induction parts generalizing d t with
  | nil => exact h
  | cons part parts ih =>
      obtain ⟨hpart, hparts⟩ := not_or.mp (mt List.mem_cons.mpr hne)
      have hslash' : slash ∉ part := hslash part List.mem_cons_self
      exact ih (h.next hd.nonempty part) (hd.pushCode hslash' (Ne.symm hpart) false)
        (hslash.of_subset (List.subset_cons_self part parts)) hparts

/-- **In a relative path** the code comes to the same components exactly if no name merges. -/
theorem foldl_pushCode_relative (ht : Names t.names) (hslash : Pieces slash parts)
    (hne : [] ∉ parts) : parts.foldl (Trail.pushCode false) t = t.pushAll false parts ↔
      Each (fun pre part => ¬ Merges (t.pushAll false pre) part) parts := by
  induction parts generalizing t with
  | nil => exact iff_of_true rfl (each_nil _)
  | cons part parts ih =>
      obtain ⟨hpart, hparts⟩ := not_or.mp (mt List.mem_cons.mpr hne)
      have hslash' : slash ∉ part := hslash part List.mem_cons_self
      have hrest := hslash.of_subset (List.subset_cons_self part parts)
      have hnext := ht.pushCode hslash' (Ne.symm hpart) false
      rw [each_cons]
      show parts.foldl _ (t.pushCode false part) = (t.push false part).pushAll false parts ↔ _
      by_cases hmerges : Merges t part
      · exact iff_of_false ((above_of_merges hmerges).foldl hnext hrest hparts).ne
          fun h => h.1 hmerges
      · rw [pushCode_eq_push ht hmerges] at hnext ⊢
        exact (ih hnext hrest hparts).trans (and_iff_right hmerges).symm

end

/-! ### What is returned -/

section
variable {d t : Trail} {bs parts : List Filename} {isAbs : Bool} {f : Filename}

/-- **The loop** goes along the trail, and its names stay ordinary. -/
theorem foldl_normalisePart (ht : Names t.names) (hslash : Pieces slash parts) (hne : [] ∉ parts) :
    parts.foldl (normalisePart isAbs) (t.strings isAbs) =
      (parts.foldl (Trail.pushCode isAbs) t).strings isAbs ∧
    Names (parts.foldl (Trail.pushCode isAbs) t).names := by
  induction parts generalizing t with
  | nil => exact ⟨rfl, ht⟩
  | cons part parts ih =>
      obtain ⟨hpart, hparts⟩ := not_or.mp (mt List.mem_cons.mpr hne)
      have hslash' : slash ∉ part := hslash part List.mem_cons_self
      rw [List.foldl_cons, normalisePart_strings ht.pieces ht.nonempty]
      exact ih (ht.pushCode hslash' (Ne.symm hpart) isAbs)
        (hslash.of_subset (List.subset_cons_self part parts)) hparts

/-- The names of the canonical trail are ordinary. -/
theorem ordinary_pushAll (ht : Ordinary t.names) (hslash : Pieces slash parts) (hne : [] ∉ parts) :
    Ordinary (t.pushAll isAbs parts).names := by
  induction parts generalizing t with
  | nil => exact ht
  | cons part parts ih =>
      obtain ⟨hpart, hparts⟩ := not_or.mp (mt List.mem_cons.mpr hne)
      exact ih (ht.push (hslash part List.mem_cons_self) (Ne.symm hpart) isAbs)
        (hslash.of_subset (List.subset_cons_self part parts)) hparts

/-- The code's trail of a path. -/
def codeTrail (f : Filename) : Trail := f.parts.foldl (Trail.pushCode f.isAbsolute) ⟨0, []⟩

/-- The names the code arrives at are ordinary. -/
theorem names_codeTrail (f : Filename) : Names (codeTrail f).names :=
  (foldl_normalisePart (t := ⟨0, []⟩) names_nil (pieces_parts f) (nil_notMem_parts f)).2

/-- The names of the canonical form are ordinary. -/
theorem ordinary_trail (isAbs : Bool) (f : Filename) : Ordinary (trail isAbs f.parts).names :=
  ordinary_pushAll (t := ⟨0, []⟩) ordinary_nil (pieces_parts f) (nil_notMem_parts f)

/-- The end of `normalise`. -/
def Trail.render (isAbs : Bool) (d : Trail) : Filename :=
  if (d.strings isAbs).2 = [] ∧ (d.strings isAbs).1 = [] then [dot]
  else (d.strings isAbs).1 ++ (d.strings isAbs).2

/-- `normalise` writes down where the loop arrives. -/
theorem normalise_eq (f : Filename) : f.normalise = (codeTrail f).render f.isAbsolute := by
  have hfold : f.parts.foldl (normalisePart f.isAbsolute) ((⟨0, []⟩ : Trail).strings f.isAbsolute) =
      (codeTrail f).strings f.isAbsolute :=
    (foldl_normalisePart names_nil (pieces_parts f) (nil_notMem_parts f)).1
  have hstart : (⟨0, []⟩ : Trail).strings f.isAbsolute =
      (if f.isAbsolute then [slash] else [], []) := by
    cases f.isAbsolute <;> rfl
  rw [hstart] at hfold
  rw [normalise, hfold]
  rfl

/-- At the root nothing is gone up. -/
theorem climb_ups (t : Trail) : (t.climb true).ups = t.ups := by
  rw [Trail.climb]
  split <;> rfl

/-- What no step changes the loop does not. -/
theorem foldl_ups {g : Trail → Filename → Trail} (hg : ∀ t part, (g t part).ups = t.ups)
    (parts : List Filename) (t : Trail) : (parts.foldl g t).ups = t.ups := by
  induction parts generalizing t with
  | nil => rfl
  | cons part parts ih => exact (ih _).trans (hg t part)

/-- Behind a root there is nothing to climb. -/
theorem ups_codeTrail (habs : f.isAbsolute = true) : (codeTrail f).ups = 0 := by
  rw [codeTrail, habs]
  refine foldl_ups (fun t part => ?_) _ _
  rw [Trail.pushCode]
  split
  · rfl
  · split
    · exact climb_ups t
    · rfl

/-- An absolute name never goes up. -/
theorem ups_trail (parts : List Filename) : (trail true parts).ups = 0 := by
  refine foldl_ups (fun t part => ?_) _ _
  rw [Trail.push]
  split
  · rfl
  · split
    · exact climb_ups t
    · rfl

/-- A leading `../` each, and the rest. -/
theorem flatten_ups (n : Nat) (h : bs ≠ []) :
    (List.replicate n [dot, dot, slash]).flatten ++ [slash].intercalate bs =
      [slash].intercalate (List.replicate n dotdot ++ bs) := by
  induction n with
  | zero => rfl
  | succ n ih =>
      have hne : List.replicate n dotdot ++ bs ≠ [] := List.append_ne_nil_of_right_ne_nil _ h
      have hcons : List.replicate (n + 1) dotdot ++ bs =
          dotdot :: (List.replicate n dotdot ++ bs) := rfl
      rw [hcons, List.intercalate_cons_of_ne_nil hne, ← ih, List.replicate_succ, List.flatten_cons,
        List.append_assoc]
      rfl

/-- An absolute name is written with a slash before its names. -/
theorem render_root (hups : d.ups = 0) : d.render true = slash :: [slash].intercalate d.names := by
  rw [Trail.render, Trail.strings, hups]
  simp

/-- A relative path ends with a slash where only `..`s are left. -/
theorem render_relative (hd : [] ∉ d.names) (hne : d.components ≠ []) :
    d.render false = [slash].intercalate (List.replicate d.ups dotdot ++ pieces d.names) := by
  rw [← flatten_ups _ (pieces_ne_nil _), intercalate_pieces, Trail.render, Trail.strings]
  refine if_neg ?_
  rintro ⟨hdown, hup⟩
  have hnames : d.names = [] := (intercalate_eq_nil_of_names hd).mp hdown
  refine hne ?_
  rw [Trail.components, hnames, List.append_nil]
  rcases Nat.eq_zero_or_pos d.ups with hzero | hpos
  · rw [hzero]
    rfl
  · obtain ⟨n, hn⟩ := Nat.exists_eq_add_of_lt hpos
    rw [show d.ups = n + 1 by omega, List.replicate_succ] at hup
    cases hup

/-- Nowhere to go is written as a dot. -/
theorem render_dot (h : d.components = []) : d.render false = [dot] := by
  obtain ⟨hups, hnames⟩ := List.append_eq_nil_iff.mp h
  have hzero : d.ups = 0 := by simpa using hups
  rw [Trail.render, Trail.strings, hnames, hzero]
  rfl

/-- Components are told apart by what they are written as. -/
theorem pieces_inj {cs : List Filename} (hb : [] ∉ bs) (hc : [] ∉ cs)
    (h : pieces bs = pieces cs) : bs = cs := by
  rw [pieces, pieces] at h
  split at h
  case isTrue hbs =>
    split at h
    case isTrue hcs =>
      rw [hbs, hcs]
    · exact absurd (h ▸ List.mem_cons_self) hc
  · split at h
    · exact absurd (h ▸ List.mem_cons_self) hb
    · exact h

/-- Steps up have no slash in them. -/
theorem pieces_ups (n : Nat) (h : Pieces slash bs) :
    Pieces slash (List.replicate n dotdot ++ bs) := by
  intro b hb
  rcases List.mem_append.mp hb with hb | hb
  · rw [List.eq_of_mem_replicate hb]
    decide
  · exact h b hb

theorem dot_notMem_ups (n : Nat) (h : [dot] ∉ bs) : [dot] ∉ List.replicate n dotdot ++ bs := by
  intro hmem
  rcases List.mem_append.mp hmem with hmem | hmem
  · exact absurd (List.eq_of_mem_replicate hmem) (by decide)
  · exact h hmem

theorem notMem_pieces {a : Filename} (ha : a ≠ []) (h : a ∉ bs) : a ∉ pieces bs := by
  rw [pieces]
  split
  · exact fun hmem => ha (List.mem_singleton.mp hmem)
  · exact h

/-- The `..`s are those in front. -/
theorem ups_inj {k n : Nat} {cs : List Filename} (hb : dotdot ∉ bs) (hc : dotdot ∉ cs)
    (h : List.replicate k dotdot ++ bs = List.replicate n dotdot ++ cs) : k = n ∧ bs = cs := by
  have hcount := congrArg (List.count dotdot) h
  rw [List.count_append, List.count_append, List.count_replicate_self, List.count_replicate_self,
    List.count_eq_zero_of_not_mem hb, List.count_eq_zero_of_not_mem hc] at hcount
  obtain rfl : k = n := hcount
  exact ⟨rfl, List.append_cancel_left h⟩

/-- A root and its names can be told apart. -/
theorem render_root_iff (hd : Ordinary d.names) (ht : Ordinary t.names) (hdups : d.ups = 0)
    (htups : t.ups = 0) : d.render true = joinPath true t.components ↔ d = t := by
  rw [render_root hdups, joinPath, Trail.components, htups]
  constructor
  · intro heq
    have heq : [slash].intercalate d.names = [slash].intercalate t.names := (List.cons.inj heq).2
    rw [← intercalate_pieces d.names, ← intercalate_pieces t.names,
      intercalate_inj (pieces_pieces hd.pieces) (pieces_pieces ht.pieces) (pieces_ne_nil _)
        (pieces_ne_nil _)] at heq
    exact Trail.ext (hdups.trans htups.symm) (pieces_inj hd.nonempty ht.nonempty heq)
  · rintro rfl
    rfl

/-- So can the `..`s and the names of a relative path, unless only `..`s are left. -/
theorem render_relative_iff (hd : Ordinary d.names) (ht : Ordinary t.names) :
    d.render false = (if t.components = [] then [dot] else [slash].intercalate t.components) ↔
      d = t ∧ (t.names = [] → t.ups = 0) := by
  have hdot : [slash].intercalate [[dot]] = [dot] := rfl
  have hone : Pieces slash [[dot]] := .singleton (by decide)
  have hdpieces := pieces_ups d.ups (pieces_pieces hd.pieces)
  have htpieces : Pieces slash t.components := pieces_ups t.ups ht.pieces
  have hdne := List.append_ne_nil_of_right_ne_nil (List.replicate d.ups dotdot)
    (pieces_ne_nil d.names)
  constructor
  · intro heq
    by_cases hdc : d.components = []
    · rw [render_dot hdc] at heq
      split at heq
      case isTrue htc =>
        obtain ⟨hdups, hdnames⟩ := List.append_eq_nil_iff.mp hdc
        obtain ⟨htups, htnames⟩ := List.append_eq_nil_iff.mp htc
        have hdzero : d.ups = 0 := by simpa using hdups
        have htzero : t.ups = 0 := by simpa using htups
        exact ⟨Trail.ext (hdzero.trans htzero.symm) (hdnames.trans htnames.symm),
          fun _ => htzero⟩
      case isFalse htc =>
        rw [← hdot] at heq
        have heq : [[dot]] = List.replicate t.ups dotdot ++ t.names :=
          (intercalate_inj hone htpieces (List.cons_ne_nil _ _) htc).mp heq
        exact absurd (heq ▸ List.mem_cons_self) (dot_notMem_ups t.ups ht.no_dot)
    · rw [render_relative hd.nonempty hdc] at heq
      split at heq
      · rw [← hdot, intercalate_inj hdpieces hone hdne (List.cons_ne_nil _ _)] at heq
        refine absurd (heq.symm ▸ List.mem_cons_self) (dot_notMem_ups d.ups ?_)
        exact notMem_pieces (List.cons_ne_nil _ _) hd.no_dot
      case isFalse htc =>
        have heq := (intercalate_inj hdpieces htpieces hdne htc).mp heq
        obtain ⟨hups, hnames⟩ := ups_inj
          (notMem_pieces (List.cons_ne_nil _ _) hd.no_dotdot) ht.no_dotdot heq
        rw [pieces] at hnames
        split at hnames
        · exact absurd (hnames ▸ List.mem_cons_self) ht.nonempty
        case isFalse hne =>
          exact ⟨Trail.ext hups hnames, fun hnil => absurd (hnames.trans hnil) hne⟩
  · rintro ⟨rfl, hnil⟩
    by_cases hdc : d.components = []
    · rw [if_pos hdc, render_dot hdc]
    · have hne : d.names ≠ [] := fun hnames => hdc (by
        rw [Trail.components, hnames, hnil hnames]
        rfl)
      rw [if_neg hdc, render_relative hd.nonempty hdc, pieces, if_neg hne]
      rfl

/-- `normalise` returns the canonical form where it comes to the trail, and a relative path that
leads up leads down again. -/
theorem normalise_eq_canonical_iff (f : Filename) : f.normalise = f.canonical ↔
    codeTrail f = trail f.isAbsolute f.parts ∧
      (f.isAbsolute = false → (trail false f.parts).names = [] →
        (trail false f.parts).ups = 0) := by
  have hcode := (names_codeTrail f).toOrdinary
  have htrail := ordinary_trail f.isAbsolute f
  rw [normalise_eq, canonical]
  cases habs : f.isAbsolute with
  | true =>
      rw [habs] at htrail
      rw [if_neg fun h => Bool.false_ne_true h.1.symm,
        render_root_iff hcode htrail (ups_codeTrail habs) (ups_trail f.parts)]
      exact (and_iff_left fun h => absurd h.symm Bool.false_ne_true).symm
  | false =>
      rw [habs] at htrail
      rw [forall_prop_of_true rfl, ← render_relative_iff hcode htrail]
      simp only [true_and]
      rfl

/-- Its condition in terms of the parts. -/
theorem codeTrail_eq_trail_iff (f : Filename) :
    codeTrail f = trail f.isAbsolute f.parts ∧
      (f.isAbsolute = false → (trail false f.parts).names = [] → (trail false f.parts).ups = 0) ↔
      Normalisable f := by
  rw [Normalisable, codeTrail]
  cases f.isAbsolute with
  | true =>
      rw [if_pos rfl]
      refine (and_iff_left fun h => absurd h.symm Bool.false_ne_true).trans ?_
      exact (foldl_pushCode_root (pieces_parts f) (nil_notMem_parts f)).1 ⟨0, []⟩ names_nil
  | false =>
      rw [if_neg Bool.false_ne_true, forall_prop_of_true rfl]
      exact and_congr_left fun _ =>
        foldl_pushCode_relative (t := ⟨0, []⟩) names_nil (pieces_parts f) (nil_notMem_parts f)

/-! ### Once more -/

/-- Components that are joined are found again. -/
theorem parts_intercalate (hbs : Pieces slash bs) (hne : [] ∉ bs) :
    Filename.parts ([slash].intercalate bs) = bs := by
  by_cases hnil : bs = []
  · rw [hnil]
    rfl
  · rw [Filename.parts, List.splitOn_intercalate slash hbs hnil, List.filter_eq_self]
    intro b hb
    exact decide_eq_true fun h => hne (h ▸ hb)

/-- Names that do not run together are all kept. -/
theorem foldl_pushCode_names (isAbs : Bool) (n : Nat) (h : Names (bs ++ parts)) :
    parts.foldl (Trail.pushCode isAbs) ⟨n, bs⟩ = ⟨n, bs ++ parts⟩ := by
  induction parts generalizing bs with
  | nil => rw [List.foldl_nil, List.append_nil]
  | cons part parts ih =>
      have hmem : part ∈ bs ++ part :: parts := List.mem_append_right _ List.mem_cons_self
      have hdot : part ≠ [dot] := fun heq => h.no_dot (heq ▸ hmem)
      have hdd : part ≠ dotdot := fun heq => h.no_dotdot (heq ▸ hmem)
      have hbs : [] ∉ bs := fun hnil => h.nonempty (List.mem_append_left _ hnil)
      have hone : ∀ c, bs ≠ [[c]] := fun c hc => h.first c part parts (by rw [hc]; rfl)
      have happend : bs ++ part :: parts = (bs ++ [part]) ++ parts := by
        rw [List.append_assoc]
        rfl
      rw [List.foldl_cons, pushCode_name hdot hdd]
      dsimp only
      rw [pushDown_eq hbs hone, happend]
      exact ih (happend ▸ h)

/-- Steps up from the start are all kept. -/
theorem foldl_pushCode_ups (k n : Nat) :
    (List.replicate n dotdot).foldl (Trail.pushCode false) ⟨k, []⟩ = ⟨k + n, []⟩ := by
  induction n generalizing k with
  | zero => rfl
  | succ n ih =>
      rw [List.replicate_succ, List.foldl_cons]
      have hstep : Trail.pushCode false ⟨k, []⟩ dotdot = ⟨k + 1, []⟩ := rfl
      rw [hstep, ih, Nat.add_assoc, Nat.add_comm 1 n]

/-- Components that are joined do not begin with a slash. -/
theorem isAbsolute_intercalate (hbs : Pieces slash bs) (hne : [] ∉ bs) :
    isAbsolute ([slash].intercalate bs) = false := by
  rcases bs with - | ⟨- | ⟨c, b⟩, bs⟩
  · rfl
  · exact absurd List.mem_cons_self hne
  · rw [isAbsolute, List.intercalate_cons_cons_left]
    refine decide_eq_false fun h => ?_
    obtain rfl : c = slash := Option.some.inj h
    exact hbs (slash :: b) List.mem_cons_self List.mem_cons_self

/-- An absolute name in its canonical form is left as it is. -/
theorem normalise_root (h : Names bs) :
    normalise (slash :: [slash].intercalate bs) = slash :: [slash].intercalate bs := by
  have htrail : codeTrail (slash :: [slash].intercalate bs) = ⟨0, bs⟩ := by
    rw [codeTrail, parts_slash, parts_intercalate h.pieces h.nonempty]
    exact foldl_pushCode_names _ 0 h
  rw [normalise_eq, htrail]
  exact render_root rfl

/-- A relative name in its canonical form is left as it is. -/
theorem normalise_relative (n : Nat) (h : Names bs) (hne : bs ≠ []) :
    normalise ([slash].intercalate (List.replicate n dotdot ++ bs)) =
      [slash].intercalate (List.replicate n dotdot ++ bs) := by
  have hpieces := pieces_ups n h.pieces
  have hnamed : [] ∉ List.replicate n dotdot ++ bs := by
    intro hmem
    rcases List.mem_append.mp hmem with hmem | hmem
    · exact absurd (List.eq_of_mem_replicate hmem) (by decide)
    · exact h.nonempty hmem
  have habs := isAbsolute_intercalate hpieces hnamed
  have htrail : codeTrail ([slash].intercalate (List.replicate n dotdot ++ bs)) = ⟨n, bs⟩ := by
    rw [codeTrail, habs, parts_intercalate hpieces hnamed, List.foldl_append, foldl_pushCode_ups,
      Nat.zero_add]
    exact foldl_pushCode_names false n h
  have hcomps : Trail.components ⟨n, bs⟩ ≠ [] := List.append_ne_nil_of_right_ne_nil _ hne
  rw [normalise_eq, habs, htrail, render_relative h.nonempty hcomps, pieces, if_neg hne]

/-- A canonical form that `normalise` returns it returns again. -/
theorem normalise_normalise_of_canonical (h : f.normalise = f.canonical) :
    f.normalise.normalise = f.normalise := by
  obtain ⟨htrail, hups⟩ := (normalise_eq_canonical_iff f).mp h
  have hnames := names_codeTrail f
  rw [normalise_eq f]
  cases habs : f.isAbsolute with
  | true =>
      rw [render_root (ups_codeTrail habs)]
      exact normalise_root hnames
  | false =>
      rw [habs] at htrail
      by_cases hcomps : (codeTrail f).components = []
      · rw [render_dot hcomps]
        decide
      · have hne : (codeTrail f).names ≠ [] := by
          intro hnil
          refine hcomps ?_
          have hzero : (codeTrail f).ups = 0 := by
            rw [htrail] at hnil ⊢
            exact hups habs hnil
          rw [Trail.components, hnil, hzero]
          rfl
        rw [render_relative hnames.nonempty hcomps, pieces, if_neg hne]
        exact normalise_relative _ hnames hne

/-- **`normalise` returns the canonical form**, and returns it once more, exactly if no name of a
relative path comes behind a single component of one byte and the path does not come to `..`s alone;
or, for an absolute path, if the path returns to the root behind each such name. -/
theorem normalise_canonical_iff (f : Filename) :
    f.normalise = f.canonical ∧ f.normalise.normalise = f.normalise ↔ Normalisable f := by
  rw [← codeTrail_eq_trail_iff, ← normalise_eq_canonical_iff]
  exact ⟨fun h => h.1, fun h => ⟨h, normalise_normalise_of_canonical h⟩⟩

end

/-- `a/b` becomes `ab`, and `..` becomes `../`. -/
theorem normalise_merges :
    ¬ (∀ f : Filename, f.normalise = f.canonical ∧ f.normalise.normalise = f.normalise) ∧
      normalise [97, slash, 98] = [97, 98] ∧ normalise dotdot = dotdot ++ [slash] := by
  refine ⟨fun hall => ?_, by decide, by decide⟩
  exact absurd (hall [97, slash, 98]).1 (by decide)

end NovaProva.Filename
