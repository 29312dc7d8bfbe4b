import Mathlib.Data.List.Basic

/-!
# Lib — OrdMap

An ordered map over a comparison `lt`, as the list of its entries in order: a search passes the
entries before the key, and ends at the first that is not.  Two keys of which neither is before
the other are the same to the map, whether or not they are equal.

* `entered`: the keys of the map after any assignments.

`Sorted` needs `lt` to be transitive only: entries that are in the map are comparable, and keys that
are not comparable to one of them are never entered.
-/

namespace OrdMap

variable {K V : Type} (lt : K → K → Bool)

/-- The entry of the map for a key. -/
def find : List (K × V) → K → Option (K × V)
  | [],     _ => none
  | e :: m, k => if lt e.1 k then find m k else if lt k e.1 then none else some e

/-- `m[k] = v`: the value of the entry for the key is replaced, and the key in the map stays. -/
def insert : List (K × V) → K → V → List (K × V)
  | [],     k, v => [(k, v)]
  | e :: m, k, v =>
      if lt e.1 k then e :: insert m k v
      else if lt k e.1 then (k, v) :: e :: m
      else (e.1, v) :: m

/-- The map after a list of assignments, from the first on. -/
def insertAll (es : List (K × V)) (m : List (K × V)) : List (K × V) :=
  es.foldl (fun m e => insert lt m e.1 e.2) m

/-- The keys are in order. -/
def Sorted (m : List (K × V)) : Prop := m.Pairwise fun a b => lt a.1 b.1 = true

/-- One of the keys is before the other. -/
def Comparable (a b : K) : Prop := lt a b = true ∨ lt b a = true

instance : DecidableRel (Comparable lt) := fun _ _ => inferInstanceAs (Decidable (_ ∨ _))

/-- The keys behind an assignment: a key is entered if it is comparable to all that were. -/
def enter (ks : List K) (k : K) : List K :=
  if ∀ a ∈ ks, Comparable lt a k then ks ++ [k] else ks

/-- The keys of a map after assignments to these, from the first on. -/
def entered (ks : List K) : List K := ks.foldl (enter lt) []

variable {lt}

/-- A key that is comparable to all in the map gets an entry of its own. -/
theorem mem_insert {m : List (K × V)} {k : K} {v : V}
    (h : ∀ e ∈ m, Comparable lt e.1 k) (e : K × V) :
    e ∈ insert lt m k v ↔ e = (k, v) ∨ e ∈ m := by
  induction m with
  | nil => simp [insert]
  | cons d m ih =>
      have ih' := ih fun e he => h e (List.mem_cons_of_mem _ he)
      rw [insert]
      split
      · rw [List.mem_cons, List.mem_cons, ih']
        exact or_left_comm
      case isFalse hd =>
        have hk : lt k d.1 = true := (h d List.mem_cons_self).resolve_left hd
        rw [if_pos hk, List.mem_cons]

/-- The keys of the map are those that were there, and perhaps the new one. -/
theorem mem_keys_insert {m : List (K × V)} {k : K} {v : V} {e : K × V}
    (h : e ∈ insert lt m k v) : e.1 = k ∨ e.1 ∈ m.map Prod.fst := by
  induction m with
  | nil =>
      rw [insert, List.mem_singleton] at h
      exact .inl (congrArg Prod.fst h)
  | cons d m ih =>
      rw [insert] at h
      rw [List.map_cons, List.mem_cons]
      split at h
      · rcases List.mem_cons.mp h with rfl | h
        · exact .inr (.inl rfl)
        · rcases ih h with hk | hm
          · exact .inl hk
          · exact .inr (.inr hm)
      · split at h
        · rcases List.mem_cons.mp h with rfl | h
          · exact .inl rfl
          · rcases List.mem_cons.mp h with rfl | h
            · exact .inr (.inl rfl)
            · exact .inr (.inr (List.mem_map_of_mem h))
        · rcases List.mem_cons.mp h with rfl | h
          · exact .inr (.inl rfl)
          · exact .inr (.inr (List.mem_map_of_mem h))

/-- The values of the map are those that were there, and the new one. -/
theorem mem_values_insert {m : List (K × V)} {k : K} {v : V} {e : K × V}
    (h : e ∈ insert lt m k v) : e.2 = v ∨ e ∈ m := by
  induction m with
  | nil =>
      rw [insert, List.mem_singleton] at h
      exact .inl (congrArg Prod.snd h)
  | cons d m ih =>
      rw [insert] at h
      split at h
      · rcases List.mem_cons.mp h with rfl | h
        · exact .inr List.mem_cons_self
        · exact (ih h).imp_right (List.mem_cons_of_mem _)
      · split at h
        · rcases List.mem_cons.mp h with rfl | h
          · exact .inl rfl
          · exact .inr h
        · rcases List.mem_cons.mp h with rfl | h
          · exact .inl rfl
          · exact .inr (List.mem_cons_of_mem _ h)

/-- A key that is not comparable to one in the map enters none. -/
theorem keys_insert_of_not_comparable
    (htrans : ∀ a b c, lt a b = true → lt b c = true → lt a c = true) {m : List (K × V)}
    (h : Sorted lt m) {k : K} (v : V) (hnot : ∃ e ∈ m, ¬ Comparable lt e.1 k) :
    (insert lt m k v).map Prod.fst = m.map Prod.fst := by
  induction m with
  | nil =>
      obtain ⟨e, he, -⟩ := hnot
      cases he
  | cons d m ih =>
      obtain ⟨hd, hm⟩ := List.pairwise_cons.mp h
      obtain ⟨e, he, hek⟩ := hnot
      rw [insert]
      split
      case isTrue hdk =>
        have hne : e ≠ d := fun heq => hek (.inl (heq ▸ hdk))
        have he' : e ∈ m := (List.mem_cons.mp he).resolve_left hne
        rw [List.map_cons, List.map_cons, ih hm ⟨e, he', hek⟩]
      · split
        case isTrue hkd =>
          -- what is behind an entry behind the key is comparable to it
          exfalso
          rcases List.mem_cons.mp he with rfl | he
          · exact hek (.inr hkd)
          · exact hek (.inr (htrans _ _ _ hkd (hd e he)))
        · rfl

/-- The keys behind an assignment. -/
theorem mem_keys_insert_iff
    (htrans : ∀ a b c, lt a b = true → lt b c = true → lt a c = true) {m : List (K × V)}
    (h : Sorted lt m) {ks : List K} (hks : ∀ a, a ∈ m.map Prod.fst ↔ a ∈ ks) (k : K) (v : V)
    (a : K) : a ∈ (insert lt m k v).map Prod.fst ↔ a ∈ enter lt ks k := by
  have hall : (∀ b ∈ ks, Comparable lt b k) ↔ ∀ e ∈ m, Comparable lt e.1 k := by
    simp only [← hks, List.forall_mem_map]
  rw [enter]
  split
  case isTrue hcomp =>
    have hmem := mem_insert (v := v) (hall.mp hcomp)
    simp only [List.mem_map, hmem, List.mem_append, List.mem_singleton, ← hks]
    constructor
    · rintro ⟨e, rfl | he, rfl⟩
      · exact .inr rfl
      · exact .inl ⟨e, he, rfl⟩
    · rintro (⟨e, he, rfl⟩ | rfl)
      · exact ⟨e, .inr he, rfl⟩
      · exact ⟨(a, v), .inl rfl, rfl⟩
  case isFalse hcomp =>
    rw [hall] at hcomp
    push Not at hcomp
    rw [keys_insert_of_not_comparable htrans h v hcomp, hks]

/-- Only keys that were assigned to are entered. -/
theorem mem_of_mem_enters {ks bs : List K} {a : K} (h : a ∈ ks.foldl (enter lt) bs) :
    a ∈ bs ∨ a ∈ ks := by
  induction ks generalizing bs with
  | nil => exact .inl h
  | cons k ks ih =>
      rcases ih h with hb | hk
      · rw [enter] at hb
        split at hb
        · rcases List.mem_append.mp hb with hb | hb
          · exact .inl hb
          · exact .inr (List.mem_cons.mpr (.inl (List.mem_singleton.mp hb)))
        · exact .inl hb
      · exact .inr (List.mem_cons_of_mem _ hk)

/-- An entry was there, or it is that of the key, or one that is not comparable to it. -/
theorem mem_insert_cases {m : List (K × V)} {k : K} {v : V} {e : K × V}
    (h : e ∈ insert lt m k v) :
    e ∈ m ∨ e.2 = v ∧ (e.1 = k ∨ ¬ Comparable lt e.1 k) := by
  induction m with
  | nil =>
      rw [insert, List.mem_singleton] at h
      rw [h]
      exact .inr ⟨rfl, .inl rfl⟩
  | cons d m ih =>
      rw [insert] at h
      split at h
      · rcases List.mem_cons.mp h with rfl | h
        · exact .inl List.mem_cons_self
        · exact (ih h).imp_left (List.mem_cons_of_mem _)
      case isFalse hdk =>
        split at h
        · rcases List.mem_cons.mp h with rfl | h
          · exact .inr ⟨rfl, .inl rfl⟩
          · exact .inl h
        case isFalse hkd =>
          rcases List.mem_cons.mp h with rfl | h
          · exact .inr ⟨rfl, .inr (not_or.mpr ⟨hdk, hkd⟩)⟩
          · exact .inl (List.mem_cons_of_mem _ h)

/-- The order is kept, whatever the key. -/
theorem Sorted.insert (htrans : ∀ a b c, lt a b = true → lt b c = true → lt a c = true)
    {m : List (K × V)} (h : Sorted lt m) (k : K) (v : V) : Sorted lt (insert lt m k v) := by
  induction m with
  | nil => exact List.pairwise_singleton _ _
  | cons d m ih =>
      obtain ⟨hd, hm⟩ := List.pairwise_cons.mp h
      rw [OrdMap.insert]
      split
      case isTrue hdk =>
        refine List.pairwise_cons.mpr ⟨fun e he => ?_, ih hm⟩
        rcases mem_keys_insert he with hek | hek
        · rw [hek]
          exact hdk
        · obtain ⟨e', he', hee⟩ := List.mem_map.mp hek
          rw [← hee]
          exact hd e' he'
      · split
        case isTrue hkd =>
          refine List.pairwise_cons.mpr ⟨fun e he => ?_, h⟩
          rcases List.mem_cons.mp he with rfl | he
          · exact hkd
          · exact htrans _ _ _ hkd (hd e he)
        · exact List.pairwise_cons.mpr ⟨hd, hm⟩

/-- A search finds an entry if its key is not before or behind the one looked for, and what is
before the entry is before the key. -/
theorem find_of_mem {m : List (K × V)} (h : Sorted lt m) {e : K × V} (he : e ∈ m) {k : K}
    (hek : lt e.1 k = false) (hke : lt k e.1 = false)
    (hbefore : ∀ d, lt d e.1 = true → lt d k = true) : find lt m k = some e := by
  induction m with
  | nil => cases he
  | cons d m ih =>
      obtain ⟨hd, hm⟩ := List.pairwise_cons.mp h
      rw [find]
      rcases List.mem_cons.mp he with rfl | he
      · rw [if_neg (by rw [hek]; exact Bool.false_ne_true),
          if_neg (by rw [hke]; exact Bool.false_ne_true)]
      · rw [if_pos (hbefore d.1 (hd e he))]
        exact ih hm he

/-- What a search finds is there, and neither before nor behind the key. -/
theorem mem_of_find {m : List (K × V)} {k : K} {e : K × V} (h : find lt m k = some e) :
    e ∈ m ∧ lt e.1 k ≠ true ∧ lt k e.1 ≠ true := by
  induction m with
  | nil => cases h
  | cons d m ih =>
      rw [find] at h
      split at h
      · obtain ⟨he, hboth⟩ := ih h
        exact ⟨List.mem_cons_of_mem _ he, hboth⟩
      case isFalse hdk =>
        split at h
        · cases h
        case isFalse hkd =>
          cases h
          exact ⟨List.mem_cons_self, hdk, hkd⟩

theorem Sorted.insertAll (htrans : ∀ a b c, lt a b = true → lt b c = true → lt a c = true)
    {m : List (K × V)} (h : Sorted lt m) (es : List (K × V)) : Sorted lt (insertAll lt es m) := by
  induction es generalizing m with
  | nil => exact h
  | cons e es ih => exact ih (h.insert htrans e.1 e.2)

theorem mem_keys_insertAll {es m : List (K × V)} {e : K × V} (h : e ∈ insertAll lt es m) :
    e.1 ∈ es.map Prod.fst ∨ e.1 ∈ m.map Prod.fst := by
  induction es generalizing m with
  | nil => exact .inr (List.mem_map_of_mem h)
  | cons a es ih =>
      rw [List.map_cons, List.mem_cons]
      rcases ih h with hes | hm
      · exact .inl (.inr hes)
      · obtain ⟨d, hd, hkey⟩ := List.mem_map.mp hm
        rw [← hkey]
        exact (mem_keys_insert hd).imp_left .inl

theorem mem_values_insertAll {es m : List (K × V)} {e : K × V} (h : e ∈ insertAll lt es m) :
    e.2 ∈ es.map Prod.snd ∨ e ∈ m := by
  induction es generalizing m with
  | nil => exact .inr h
  | cons a es ih =>
      rw [List.map_cons, List.mem_cons]
      rcases ih h with hes | hm
      · exact .inl (.inr hes)
      · exact (mem_values_insert hm).imp_left .inl

/-- **The keys after any assignments.** -/
theorem mem_keys_insertAll_iff
    (htrans : ∀ a b c, lt a b = true → lt b c = true → lt a c = true) {es m : List (K × V)}
    (h : Sorted lt m) {ks : List K} (hks : ∀ a, a ∈ m.map Prod.fst ↔ a ∈ ks) (a : K) :
    a ∈ (insertAll lt es m).map Prod.fst ↔ a ∈ (es.map Prod.fst).foldl (enter lt) ks := by
  induction es generalizing m ks with
  | nil => exact hks a
  | cons e es ih =>
      exact ih (h.insert htrans e.1 e.2) (mem_keys_insert_iff htrans h hks e.1 e.2)

/-- An entry after assignments was there, or has the value of one to its key or to a key that is not
comparable to it. -/
theorem mem_insertAll_cases {es m : List (K × V)} {d : K × V} (h : d ∈ insertAll lt es m) :
    d ∈ m ∨ ∃ e ∈ es, d.2 = e.2 ∧ (d.1 = e.1 ∨ ¬ Comparable lt d.1 e.1) := by
  induction es generalizing m with
  | nil => exact .inl h
  | cons e es ih =>
      rcases ih h with hd | ⟨e', he', hval⟩
      · rcases mem_insert_cases hd with hd | hval
        · exact .inl hd
        · exact .inr ⟨e, List.mem_cons_self, hval⟩
      · exact .inr ⟨e', List.mem_cons_of_mem _ he', hval⟩

/-- Assignments to keys that are all comparable make the entries of the map. -/
theorem mem_insertAll {es m : List (K × V)}
    (hes : es.Pairwise fun a b => Comparable lt a.1 b.1)
    (hm : ∀ d ∈ m, ∀ e ∈ es, Comparable lt d.1 e.1) (e : K × V) :
    e ∈ insertAll lt es m ↔ e ∈ es ∨ e ∈ m := by
  induction es generalizing m with
  | nil => simp [insertAll]
  | cons a es ih =>
      obtain ⟨ha, hes'⟩ := List.pairwise_cons.mp hes
      have hmem := mem_insert (k := a.1) (v := a.2) fun d hd => hm d hd a List.mem_cons_self
      have hstep := ih hes' (m := insert lt m a.1 a.2) fun d hd b hb => by
        rcases (hmem d).mp hd with rfl | hd
        · exact ha b hb
        · exact hm d hd b (List.mem_cons_of_mem _ hb)
      rw [List.mem_cons]
      exact hstep.trans ((or_congr_right (hmem e)).trans (by rw [or_left_comm, or_assoc]))

end OrdMap
