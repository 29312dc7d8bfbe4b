import Mathlib.Data.List.Basic

/-!
# Lib — Joined lists

Lists put one behind the other with a separator between them, `[x].intercalate ls`.  Where none of
them holds the separator (`Pieces x ls`) they can be told apart again, by `splitOn`.
-/

variable {α : Type} {x : α} {ls ms : List (List α)} {l : List α}

/-- None of the lists holds the separator. -/
def Pieces (x : α) (ls : List (List α)) : Prop := ∀ l ∈ ls, x ∉ l

namespace Pieces

theorem of_subset (h : Pieces x ms) (hsub : ls ⊆ ms) : Pieces x ls := fun l hl => h l (hsub hl)

theorem dropLast (h : Pieces x ls) : Pieces x ls.dropLast :=
  h.of_subset (List.dropLast_subset ls)

theorem concat (h : Pieces x ls) (hl : x ∉ l) : Pieces x (ls ++ [l]) := by
  intro m hm
  rcases List.mem_append.mp hm with hm | hm
  · exact h m hm
  · rw [List.mem_singleton.mp hm]
    exact hl

theorem singleton (hl : x ∉ l) : Pieces x [l] := by
  intro m hm
  rw [List.mem_singleton.mp hm]
  exact hl

end Pieces

theorem intercalate_concat (h : ls ≠ []) (l : List α) :
    [x].intercalate (ls ++ [l]) = [x].intercalate ls ++ x :: l := by
  induction ls with
  | nil => exact absurd rfl h
  | cons m ls ih =>
      cases ls with
      | nil => simp
      | cons n ls =>
          have htail := ih (List.cons_ne_nil n ls)
          simp only [List.cons_append, List.intercalate_cons_cons] at htail ⊢
          rw [htail, List.append_assoc, List.append_assoc, List.append_assoc]

theorem intercalate_eq_nil_iff (h : ls ≠ []) : [x].intercalate ls = [] ↔ ls = [[]] := by
  cases ls with
  | nil => exact absurd rfl h
  | cons m ls =>
      cases ls with
      | nil => simp
      | cons n ls => simp

section
variable [BEq α]

/-- The first piece is empty where the list is, or begins with the separator. -/
theorem head_splitOn_eq_nil [LawfulBEq α] {x : α} {xs : List α}
    (h : (xs.splitOn x).head? = some []) : xs = [] ∨ xs.head? = some x := by
  cases xs with
  | nil => exact .inl rfl
  | cons y xs =>
      rw [List.splitOn_cons_eq_if_modifyHead] at h
      split at h
      case isTrue heq =>
        exact .inr (congrArg some (eq_of_beq heq))
      · obtain ⟨m, ms, hsplit⟩ := List.exists_cons_of_ne_nil (List.splitOn_ne_nil x xs)
        rw [hsplit] at h
        cases h

theorem length_splitOn (x : α) (xs : List α) : (xs.splitOn x).length = xs.count x + 1 := by
  induction xs with
  | nil => rfl
  | cons y xs ih =>
      rw [List.splitOn_cons_eq_if_modifyHead, List.count_cons]
      split
      · rw [List.length_cons, ih]
      · rw [List.length_modifyHead, ih, Nat.add_zero]

variable [LawfulBEq α]

/-- Pieces are what is joined. -/
theorem intercalate_inj (hls : Pieces x ls) (hms : Pieces x ms) (h : ls ≠ []) (h' : ms ≠ []) :
    [x].intercalate ls = [x].intercalate ms ↔ ls = ms := by
  constructor
  · intro heq
    rw [← List.splitOn_intercalate x hls h, heq, List.splitOn_intercalate x hms h']
  · rintro rfl
    rfl

theorem pieces_splitOn (x : α) (xs : List α) : Pieces x (xs.splitOn x) := by
  induction xs with
  | nil =>
      rw [List.splitOn_nil]
      exact .singleton List.not_mem_nil
  | cons y xs ih =>
      rw [List.splitOn_cons_eq_if_modifyHead]
      split
      · intro m hm
        rcases List.mem_cons.mp hm with rfl | hm
        · exact List.not_mem_nil
        · exact ih m hm
      case isFalse hyx =>
        obtain ⟨m, ms, hsplit⟩ := List.exists_cons_of_ne_nil (List.splitOn_ne_nil x xs)
        rw [hsplit] at ih ⊢
        intro n hn
        rcases List.mem_cons.mp hn with rfl | hn
        · intro hx
          rcases List.mem_cons.mp hx with rfl | hx
          · exact hyx (BEq.refl x)
          · exact ih m List.mem_cons_self hx
        · exact ih n (List.mem_cons_of_mem m hn)

end
