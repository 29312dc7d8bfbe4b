import NovaProva.Lib.OrdMap
import Mathlib.Data.List.Induction
import Mathlib.Order.Lattice

/-!
# Util — Range tree

`np/util/rangetree.hxx`: a `std::map` over ranges, in which one range is before another if it ends
where the other starts, or earlier.  A range `[lo, hi)` with `hi ≤ lo` is the point `lo`.
-/

namespace NovaProva

/-- `range<T>`. -/
structure Range (T : Type) where
  lo : T
  hi : T
  deriving DecidableEq

/-- `range(T x)`. -/
def Range.point {T : Type} (x : T) : Range T := { lo := x, hi := x }

section
variable {T : Type} [LinearOrder T]

/-- `left_of_range`. -/
def leftOfRange (a b : Range T) : Bool := a.lo < b.lo && a.hi ≤ b.lo

/-- From `lo` up to `hi`. -/
def Range.Contains (a : Range T) (x : T) : Prop := a.lo ≤ x ∧ x < a.hi

/-- What is in a range for `left_of_range`: what it contains, and `lo`. -/
def Range.Covers (a : Range T) (x : T) : Prop := x = a.lo ∨ a.Contains x

theorem Range.Contains.covers {a : Range T} {x : T} (h : a.Contains x) : a.Covers x := .inr h

theorem Range.Covers.contains {a : Range T} {x : T} (h : a.Covers x) (ha : a.lo < a.hi) :
    a.Contains x := by
  rcases h with rfl | h
  · exact ⟨le_refl _, ha⟩
  · exact h

theorem leftOfRange_iff {a b : Range T} :
    leftOfRange a b = true ↔ a.lo < b.lo ∧ a.hi ≤ b.lo := by
  rw [leftOfRange, Bool.and_eq_true, decide_eq_true_iff, decide_eq_true_iff]

theorem leftOfRange_trans (a b c : Range T) (hab : leftOfRange a b = true)
    (hbc : leftOfRange b c = true) : leftOfRange a c = true := by
  rw [leftOfRange_iff] at *
  exact ⟨hab.1.trans hbc.1, hab.2.trans hbc.1.le⟩

theorem Range.Covers.lo_le {a : Range T} {x : T} (h : a.Covers x) : a.lo ≤ x := by
  rcases h with rfl | h
  · exact le_refl _
  · exact h.1

/-- What is in a range is before every range that is behind it. -/
theorem Range.Covers.lt_of_leftOfRange {a b : Range T} {x : T} (h : a.Covers x)
    (hab : leftOfRange a b = true) : x < b.lo := by
  rw [leftOfRange_iff] at hab
  rcases h with rfl | h
  · exact hab.1
  · exact h.2.trans_le hab.2

/-- The later of two starts is in both ranges, unless one of them is before the other. -/
theorem covers_of_not_leftOfRange {a b : Range T} (hle : a.lo ≤ b.lo)
    (h : leftOfRange a b ≠ true) : a.Covers b.lo := by
  rcases hle.eq_or_lt with heq | hlt
  · exact .inl heq.symm
  · refine .inr ⟨hle, lt_of_not_ge fun hhi => h ?_⟩
    exact leftOfRange_iff.mpr ⟨hlt, hhi⟩

/-- Ranges are comparable exactly if nothing is in both. -/
theorem comparable_iff {a b : Range T} :
    OrdMap.Comparable leftOfRange a b ↔ ∀ x, a.Covers x → ¬ b.Covers x := by
  constructor
  · rintro (hab | hba) x ha hb
    · exact absurd hb.lo_le (not_le.mpr (ha.lt_of_leftOfRange hab))
    · exact absurd ha.lo_le (not_le.mpr (hb.lt_of_leftOfRange hba))
  · intro h
    by_contra hne
    rw [OrdMap.Comparable, not_or] at hne
    rcases le_total a.lo b.lo with hle | hle
    · exact h b.lo (covers_of_not_leftOfRange hle hne.1) (.inl rfl)
    · exact h a.lo (.inl rfl) (covers_of_not_leftOfRange hle hne.2)

/-- A point is in a range exactly if neither is before the other. -/
theorem covers_iff {a : Range T} {x : T} :
    a.Covers x ↔ leftOfRange a (.point x) ≠ true ∧ leftOfRange (.point x) a ≠ true := by
  rw [Ne, Ne, leftOfRange_iff, leftOfRange_iff]
  constructor
  · intro hx
    refine ⟨fun h => ?_, fun h => absurd hx.lo_le (not_le.mpr h.1)⟩
    rcases hx with rfl | hx
    · exact lt_irrefl _ h.1
    · exact absurd hx.2 (not_lt.mpr h.2)
  · rintro ⟨hbehind, hbefore⟩
    have hle : a.lo ≤ x := le_of_not_gt fun h => hbefore ⟨h, h.le⟩
    rcases hle.eq_or_lt with heq | hlt
    · exact .inl heq.symm
    · exact .inr ⟨hle, lt_of_not_ge fun hhi => hbehind ⟨hlt, hhi⟩⟩

/-- Nothing tells the ranges apart, or nothing is in both. -/
def Range.SameOrApart (a b : Range T) : Prop :=
  (∀ x, a.Covers x ↔ b.Covers x) ∨ ∀ x, a.Covers x → ¬ b.Covers x

/-- The start of a range is the least that is in it. -/
theorem Range.lo_eq_of_covers_iff {a b : Range T} (h : ∀ x, a.Covers x ↔ b.Covers x) :
    a.lo = b.lo := by
  have ha : b.Covers a.lo := (h a.lo).mp (.inl rfl)
  have hb : a.Covers b.lo := (h b.lo).mpr (.inl rfl)
  exact le_antisymm hb.lo_le ha.lo_le

/-- Ranges that are not empty are comparable if they are disjoint. -/
theorem comparable_of_disjoint {a b : Range T} (ha : a.lo < a.hi) (hb : b.lo < b.hi)
    (h : ∀ x, a.Contains x → ¬ b.Contains x) : OrdMap.Comparable leftOfRange a b :=
  comparable_iff.mpr fun x hxa hxb => h x (hxa.contains ha) (hxb.contains hb)

end

/-- `rangetree<K, V>`. -/
structure RangeTree (K V : Type) where
  map : List (Range K × V) := []

namespace RangeTree

variable {K V : Type} [LinearOrder K]

/-- `size`. -/
def size (t : RangeTree K V) : Nat := t.map.length

/-- `insert`: the value of an entry that is neither before nor behind the range is replaced. -/
def insert (t : RangeTree K V) (r : Range K) (val : V) : RangeTree K V :=
  { map := OrdMap.insert leftOfRange t.map r val }

/-- `find`: the entry that is neither before nor behind the point. -/
def find (t : RangeTree K V) (x : K) : Option (Range K × V) :=
  OrdMap.find leftOfRange t.map (.point x)

/-- A tree after a list of inserts, from the first on. -/
def insertAll (es : List (Range K × V)) : RangeTree K V :=
  es.foldl (fun t e => t.insert e.1 e.2) {}

theorem map_insertAll (es : List (Range K × V)) :
    (insertAll es).map = OrdMap.insertAll leftOfRange es [] := by
  suffices ∀ t : RangeTree K V, (es.foldl (fun t e => t.insert e.1 e.2) t).map =
      OrdMap.insertAll leftOfRange es t.map from this {}
  intro t
  induction es generalizing t with
  | nil => rfl
  | cons e es ih => exact ih (t.insert e.1 e.2)

theorem size_ne_zero_of_find {t : RangeTree K V} {x : K} {e : Range K × V}
    (h : t.find x = some e) : t.size ≠ 0 := by
  intro hsize
  rw [find, List.eq_nil_of_length_eq_zero hsize] at h
  cases h

/-- The entry whose range has the key in it is the one that is found. -/
theorem find_of_covers {m : List (Range K × V)} (h : OrdMap.Sorted leftOfRange m)
    {e : Range K × V} (he : e ∈ m) {x : K} (hx : e.1.Covers x) :
    OrdMap.find leftOfRange m (.point x) = some e := by
  obtain ⟨hbehind, hbefore⟩ := covers_iff.mp hx
  refine OrdMap.find_of_mem h he (Bool.not_eq_true _ ▸ hbehind) (Bool.not_eq_true _ ▸ hbefore) ?_
  intro d hd
  rw [leftOfRange_iff] at hd ⊢
  exact ⟨hd.1.trans_le hx.lo_le, hd.2.trans hx.lo_le⟩

/-- **A tree of ranges that have nothing in common** finds each of them, under each of the keys in
it. -/
theorem find_insertAll {es : List (Range K × V)}
    (h : es.Pairwise fun a b => OrdMap.Comparable leftOfRange a.1 b.1) {e : Range K × V}
    (he : e ∈ es) {x : K} (hx : e.1.Covers x) : (insertAll es).find x = some e := by
  have hmem : e ∈ OrdMap.insertAll leftOfRange es [] :=
    (OrdMap.mem_insertAll h (fun d hd => absurd hd List.not_mem_nil) e).mpr (.inl he)
  rw [find, map_insertAll]
  exact find_of_covers (OrdMap.Sorted.insertAll leftOfRange_trans List.Pairwise.nil es) hmem hx

/-- The ranges that are kept of those inserted: each that has nothing in common with one kept
before. -/
def kept (rs : List (Range K)) : List (Range K) := OrdMap.entered leftOfRange rs

theorem mem_of_mem_kept {rs : List (Range K)} {r : Range K} (h : r ∈ kept rs) : r ∈ rs :=
  (OrdMap.mem_of_mem_enters h).resolve_left List.not_mem_nil

/-- **What a search finds after any inserts**: the kept range that has the key in it, if there is
one. -/
theorem find_insertAll_kept (es : List (Range K × V)) (x : K) :
    (∀ k ∈ kept (es.map Prod.fst), k.Covers x → ∃ v, (insertAll es).find x = some (k, v)) ∧
      ((∀ k ∈ kept (es.map Prod.fst), ¬ k.Covers x) → (insertAll es).find x = none) := by
  have hsorted : OrdMap.Sorted leftOfRange (OrdMap.insertAll leftOfRange es []) :=
    OrdMap.Sorted.insertAll leftOfRange_trans List.Pairwise.nil es
  have hkeys : ∀ k, k ∈ (OrdMap.insertAll leftOfRange es []).map Prod.fst ↔
      k ∈ kept (es.map Prod.fst) :=
    OrdMap.mem_keys_insertAll_iff leftOfRange_trans List.Pairwise.nil fun _ => Iff.rfl
  rw [find, map_insertAll]
  refine ⟨fun k hk hx => ?_, fun hnone => ?_⟩
  · obtain ⟨⟨_, v⟩, he, rfl⟩ := List.mem_map.mp ((hkeys k).mpr hk)
    exact ⟨v, find_of_covers hsorted he hx⟩
  · rw [Option.eq_none_iff_forall_not_mem]
    intro e he
    obtain ⟨hmem, hbehind, hbefore⟩ := OrdMap.mem_of_find he
    exact hnone e.1 ((hkeys e.1).mp (List.mem_map_of_mem hmem)) (covers_iff.mpr ⟨hbehind, hbefore⟩)

/-- What is found has the value of an insert that has something in common with the key found. -/
theorem exists_of_find_insertAll {es : List (Range K × V)} {x : K} {d : Range K × V}
    (h : (insertAll es).find x = some d) :
    d.1.Covers x ∧ ∃ e ∈ es, d.2 = e.2 ∧ ∃ y, d.1.Covers y ∧ e.1.Covers y := by
  rw [find, map_insertAll] at h
  obtain ⟨hmem, hbehind, hbefore⟩ := OrdMap.mem_of_find h
  have hx : d.1.Covers x := covers_iff.mpr ⟨hbehind, hbefore⟩
  refine ⟨hx, ?_⟩
  obtain ⟨e, he, hval, hkey⟩ := (OrdMap.mem_insertAll_cases hmem).resolve_left List.not_mem_nil
  refine ⟨e, he, hval, ?_⟩
  rcases hkey with hkey | hkey
  · exact ⟨x, hx, hkey ▸ hx⟩
  · rw [comparable_iff] at hkey
    push Not at hkey
    exact hkey

/-- What a search finds behind an assignment: the new value in the range, under a key that nothing
tells from it, and elsewhere what it found before. -/
theorem find_insert {t : RangeTree K V} {r : Range K} {v : V}
    (h : ∀ e ∈ t.map, e.1.SameOrApart r) (x : K) :
    (r.Covers x → ∃ k, (t.insert r v).find x = some (k, v) ∧ ∀ y, k.Covers y ↔ r.Covers y) ∧
      (¬ r.Covers x → (t.insert r v).find x = t.find x) := by
  obtain ⟨m⟩ := t
  simp only [find, insert] at h ⊢
  induction m with
  | nil =>
      refine ⟨fun hx => ⟨r, ?_, fun y => Iff.rfl⟩, fun hx => ?_⟩
      · obtain ⟨hbehind, hbefore⟩ := covers_iff.mp hx
        simp [OrdMap.insert, OrdMap.find, hbehind, hbefore]
      · rw [covers_iff] at hx
        simp only [OrdMap.insert, OrdMap.find]
        grind
  | cons d m ih =>
      have ih' := ih fun e he => h e (List.mem_cons_of_mem _ he)
      rw [OrdMap.insert]
      split
      case isTrue hdr =>
        -- the entry is before the range, and before all that is in it
        refine ⟨fun hx => ?_, fun hx => ?_⟩
        · have hdx : leftOfRange d.1 (.point x) = true := by
            rw [leftOfRange_iff] at hdr ⊢
            exact ⟨hdr.1.trans_le hx.lo_le, hdr.2.trans hx.lo_le⟩
          rw [OrdMap.find, if_pos hdx]
          exact ih'.1 hx
        · rw [OrdMap.find, OrdMap.find, ih'.2 hx]
      case isFalse hdr =>
        split
        case isTrue hrd =>
          -- an entry of its own
          refine ⟨fun hx => ⟨r, ?_, fun y => Iff.rfl⟩, fun hx => ?_⟩
          · obtain ⟨hbehind, hbefore⟩ := covers_iff.mp hx
            rw [OrdMap.find, if_neg hbehind, if_neg hbefore]
          · rw [OrdMap.find]
            split
            · rfl
            case isFalse hrx =>
              have hxr : leftOfRange (.point x) r = true := by
                rw [covers_iff, not_and, not_not] at hx
                exact hx hrx
              have hxd := leftOfRange_trans _ _ _ hxr hrd
              have hdx : ¬ leftOfRange d.1 (.point x) = true := fun hdx => by
                rw [leftOfRange_iff] at hdx hxd
                exact lt_asymm hdx.1 hxd.1
              rw [if_pos hxr, OrdMap.find, if_neg hdx, if_pos hxd]
        case isFalse hrd =>
          -- the value of an entry that nothing tells from the range
          have hsame : ∀ y, d.1.Covers y ↔ r.Covers y := by
            refine (h d List.mem_cons_self).resolve_right fun hapart => ?_
            rcases comparable_iff.mpr hapart with hlt | hlt
            · exact hdr hlt
            · exact hrd hlt
          refine ⟨fun hx => ⟨d.1, ?_, hsame⟩, fun hx => ?_⟩
          · obtain ⟨hbehind, hbefore⟩ := covers_iff.mp ((hsame x).mpr hx)
            rw [OrdMap.find, if_neg hbehind, if_neg hbefore]
          · have hdx : ¬ (¬ _ ∧ ¬ _) := mt (covers_iff.mpr) (mt (hsame x).mp hx)
            rw [OrdMap.find, OrdMap.find]
            grind

/-! ### Any sequence of inserts -/

theorem sorted_insertAll (es : List (Range K × V)) :
    OrdMap.Sorted leftOfRange (insertAll es).map := by
  rw [map_insertAll]
  exact OrdMap.Sorted.insertAll leftOfRange_trans List.Pairwise.nil es

/-- The keys are ranges that were inserted. -/
theorem key_mem_of_mem_insertAll {es : List (Range K × V)} {d : Range K × V}
    (h : d ∈ (insertAll es).map) : ∃ e ∈ es, e.1 = d.1 := by
  rw [map_insertAll] at h
  rcases OrdMap.mem_keys_insertAll h with hes | hm
  · exact List.mem_map.mp hes
  · cases hm

/-- The last of the inserts whose range has `x` in it. -/
def LastCover (x : K) (es : List (Range K × V)) (e : Range K × V) : Prop :=
  e.1.Covers x ∧ ∃ pre post, es = pre ++ e :: post ∧ ∀ e' ∈ post, ¬ e'.1.Covers x

theorem lastCover_concat {x : K} {es : List (Range K × V)} {a e : Range K × V} :
    LastCover x (es ++ [a]) e ↔ a.1.Covers x ∧ e = a ∨ ¬ a.1.Covers x ∧ LastCover x es e := by
  constructor
  · rintro ⟨hx, pre, post, heq, hpost⟩
    rcases List.eq_nil_or_concat' post with rfl | ⟨post, b, rfl⟩
    · obtain ⟨-, hae⟩ := List.append_inj' heq rfl
      obtain rfl : a = e := List.singleton_inj.mp hae
      exact .inl ⟨hx, rfl⟩
    · rw [← List.cons_append, ← List.append_assoc] at heq
      obtain ⟨rfl, hab⟩ := List.append_inj' heq rfl
      obtain rfl : a = b := List.singleton_inj.mp hab
      refine .inr ⟨hpost a (by simp), hx, pre, post, rfl, fun e' he' => hpost e' ?_⟩
      exact List.mem_append_left _ he'
  · rintro (⟨hx, rfl⟩ | ⟨ha, hx, pre, post, rfl, hpost⟩)
    · exact ⟨hx, es, [], rfl, by simp⟩
    · refine ⟨hx, pre, post ++ [a], by simp, fun e' he' => ?_⟩
      rcases List.mem_append.mp he' with he' | he'
      · exact hpost e' he'
      · rwa [List.mem_singleton.mp he']

theorem insertAll_concat (es : List (Range K × V)) (a : Range K × V) :
    insertAll (es ++ [a]) = (insertAll es).insert a.1 a.2 := by
  rw [insertAll, List.foldl_append]
  rfl

/-- A search after inserts of ranges that are the same or apart: the value is that of the last
insert whose range has the key in it. -/
theorem find_insertAll_last {es : List (Range K × V)}
    (h : es.Pairwise fun a b => a.1.SameOrApart b.1) (x : K) :
    (∀ e, LastCover x es e →
      ∃ d, (insertAll es).find x = some d ∧ d.2 = e.2 ∧ d.1.lo = e.1.lo) ∧
    ((∀ e ∈ es, ¬ e.1.Covers x) → (insertAll es).find x = none) := by
  induction es using List.reverseRecOn with
  | nil =>
      refine ⟨fun e he => ?_, fun _ => rfl⟩
      obtain ⟨-, pre, post, heq, -⟩ := he
      simp at heq
  | append_singleton es a ih =>
      obtain ⟨hes, -, ha⟩ := List.pairwise_append.mp h
      obtain ⟨hlast, hnone⟩ := ih hes
      have hkeys : ∀ d ∈ (insertAll es).map, d.1.SameOrApart a.1 := by
        intro d hd
        obtain ⟨e, he, hkey⟩ := key_mem_of_mem_insertAll hd
        rw [← hkey]
        exact ha e he a List.mem_cons_self
      obtain ⟨hin, hout⟩ := find_insert (v := a.2) hkeys x
      rw [insertAll_concat]
      refine ⟨fun e he => ?_, fun hall => ?_⟩
      · rcases lastCover_concat.mp he with ⟨hx, rfl⟩ | ⟨hx, he⟩
        · obtain ⟨k, hk, hsame⟩ := hin hx
          exact ⟨(k, e.2), hk, rfl, Range.lo_eq_of_covers_iff hsame⟩
        · rw [hout hx]
          exact hlast e he
      · rw [hout (hall a (by simp))]
        exact hnone fun e he => hall e (List.mem_append_left _ he)

/-- **Any sequence of inserts** keeps the keys in order, each ending where the next starts or
earlier, whether or not the ranges overlap.  If each two ranges are the same or apart, a search
finds the value of the last insert whose range has the key in it, under a range of the same start,
and nothing for a key that is in none. -/
theorem insertAll_ordered_and_found (es : List (Range K × V)) :
    ((insertAll es).map.Pairwise fun a b => a.1.lo < b.1.lo ∧ a.1.hi ≤ b.1.lo ∧
      ∀ x, a.1.Covers x → ¬ b.1.Covers x) ∧
    ((es.Pairwise fun a b => a.1.SameOrApart b.1) → ∀ x,
      (∀ e, LastCover x es e →
        ∃ d, (insertAll es).find x = some d ∧ d.2 = e.2 ∧ d.1.lo = e.1.lo) ∧
      ((∀ e ∈ es, ¬ e.1.Covers x) → (insertAll es).find x = none)) := by
  refine ⟨(sorted_insertAll es).imp fun {a b} hab => ?_, fun h x => find_insertAll_last h x⟩
  obtain ⟨hlo, hhi⟩ := leftOfRange_iff.mp hab
  exact ⟨hlo, hhi, comparable_iff.mp (.inl hab)⟩

/-- Two neighbours and a point, one of the neighbours twice. -/
def neighbours : List (Range Nat × String) :=
  [(⟨10, 20⟩, "first"), (⟨20, 30⟩, "second"), (⟨30, 30⟩, "point"), (⟨10, 20⟩, "again")]

theorem neighbours_sameOrApart : neighbours.Pairwise fun a b => a.1.SameOrApart b.1 := by
  have happart : ∀ a b : Range Nat, leftOfRange a b = true ∨ leftOfRange b a = true →
      a.SameOrApart b := fun a b h => .inr (comparable_iff.mp h)
  have hsame : ∀ a : Range Nat, a.SameOrApart a := fun a => .inl fun x => Iff.rfl
  simp only [neighbours, List.pairwise_cons, List.mem_cons, List.not_mem_nil, or_false]
  refine ⟨?_, ?_, ?_, ?_, List.Pairwise.nil⟩
  · rintro b (rfl | rfl | rfl)
    · exact happart _ _ (by decide)
    · exact happart _ _ (by decide)
    · exact hsame _
  · rintro b (rfl | rfl)
    · exact happart _ _ (by decide)
    · exact happart _ _ (by decide)
  · rintro b rfl
    exact happart _ _ (by decide)
  · rintro b hb
    exact absurd hb id

theorem neighbours_found :
    (∃ d, (insertAll neighbours).find 15 = some d ∧ d.2 = "again" ∧ d.1.lo = 10) ∧
      (insertAll neighbours).find 31 = none := by
  obtain ⟨hlast, -⟩ := (insertAll_ordered_and_found neighbours).2 neighbours_sameOrApart 15
  obtain ⟨-, hnone⟩ := (insertAll_ordered_and_found neighbours).2 neighbours_sameOrApart 31
  refine ⟨hlast (⟨10, 20⟩, "again") ⟨.inr ⟨by decide, by decide⟩, neighbours.take 3, [], rfl, ?_⟩,
    hnone ?_⟩
  · simp
  · simp [neighbours, Range.Covers, Range.Contains]

end RangeTree

end NovaProva
