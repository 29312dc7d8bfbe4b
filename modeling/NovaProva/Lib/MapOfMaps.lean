import Mathlib.Data.List.AList

/-!
# Lib — MapOfMaps

A map of maps, whose cells are written through `m[k][l]`: an entry that is not there is made on the
way, at both levels.  The order in which a map is gone through plays no part.

* `get`, `modify`: one cell.
* `cells`: all of them, in one list without a key twice.
-/

/-- A map from `K` to maps from `L`. -/
abbrev MapOfMaps (K L V : Type) := AList fun _ : K => AList fun _ : L => V

namespace MapOfMaps

variable {K L V : Type} [DecidableEq K] [DecidableEq L]

/-- The cell of a pair of keys, if it is there. -/
def get (m : MapOfMaps K L V) (k : K × L) : Option V := (m.lookup k.1).bind fun n => n.lookup k.2

/-- `m[k.1][k.2] = f(m[k.1][k.2])`, where a cell that is made starts as `d`. -/
def modify (d : V) (m : MapOfMaps K L V) (k : K × L) (f : V → V) : MapOfMaps K L V :=
  let n := (m.lookup k.1).getD ∅
  m.insert k.1 (n.insert k.2 (f ((n.lookup k.2).getD d)))

theorem lookup_getD (m : MapOfMaps K L V) (k : K) (l : L) :
    ((m.lookup k).getD ∅).lookup l = get m (k, l) := by
  cases h : m.lookup k <;> simp [get, h]

@[simp] theorem get_empty (k : K × L) : get (∅ : MapOfMaps K L V) k = none := by simp [get]

theorem get_modify_self (d : V) (m : MapOfMaps K L V) (k : K × L) (f : V → V) :
    get (modify d m k f) k = some (f ((get m k).getD d)) := by
  have hcell := lookup_getD m k.1 k.2
  simp [get, modify, hcell]

theorem get_modify_ne (d : V) (m : MapOfMaps K L V) {k k' : K × L} (f : V → V) (h : k' ≠ k) :
    get (modify d m k f) k' = get m k' := by
  obtain ⟨a, b⟩ := k
  obtain ⟨a', b'⟩ := k'
  by_cases ha : a' = a
  · subst ha
    have hb : b' ≠ b := fun hb => h (by rw [hb])
    have hcell := lookup_getD m a' b'
    simp [get, modify, AList.lookup_insert_ne hb, hcell]
  · simp [get, modify, AList.lookup_insert_ne ha]

/-! ### All cells -/

/-- The cells, with their keys. -/
def cells (m : MapOfMaps K L V) : List ((K × L) × V) :=
  m.entries.flatMap fun e => e.2.entries.map fun c => ((e.1, c.1), c.2)

theorem mem_cells {m : MapOfMaps K L V} {k : K × L} {v : V} :
    (k, v) ∈ cells m ↔ get m k = some v := by
  obtain ⟨a, b⟩ := k
  simp only [cells, List.mem_flatMap, List.mem_map, get, Option.bind_eq_some_iff]
  constructor
  · rintro ⟨⟨a, n⟩, hn, ⟨b, v⟩, hv, h⟩
    cases h
    exact ⟨n, AList.mem_lookup_iff.mpr hn, AList.mem_lookup_iff.mpr hv⟩
  · rintro ⟨n, hn, hv⟩
    exact ⟨⟨a, n⟩, AList.mem_lookup_iff.mp hn, ⟨b, v⟩, AList.mem_lookup_iff.mp hv, rfl⟩

omit [DecidableEq K] [DecidableEq L] in
/-- No key is there twice. -/
theorem nodup_cells (m : MapOfMaps K L V) : ((cells m).map (·.1)).Nodup := by
  rw [cells, List.map_flatMap, List.nodup_flatMap]
  constructor
  · intro e _
    rw [List.map_map]
    have hkeys : (e.2.entries.map Sigma.fst).Nodup := e.2.nodupKeys
    have hpairs := hkeys.map (f := fun l => (e.1, l)) fun x y h => (Prod.mk.inj h).2
    rwa [List.map_map] at hpairs
  · have hkeys : m.entries.Pairwise fun e e' => e.1 ≠ e'.1 :=
      List.pairwise_map.mp m.nodupKeys
    refine hkeys.imp fun {e e'} hne => ?_
    intro k hk hk'
    simp only [List.map_map, List.mem_map, Function.comp_apply] at hk hk'
    obtain ⟨c, -, rfl⟩ := hk
    obtain ⟨c', -, h⟩ := hk'
    exact hne (Prod.mk.inj h).1.symm

end MapOfMaps
