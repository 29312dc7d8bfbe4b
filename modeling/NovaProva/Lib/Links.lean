import Mathlib.Data.List.Basic

/-!
# Lib — Links

Lists kept in cells that point to each other: `Links next start as` says that from `start` on the
pointers `next` go through `as` and then are null.  `next a` is `none` where there is no cell `a`.

* `Links.unique`: the list is determined by its start.
* `Links.congr`, `Links.concat`: what a change of the pointers does to it.
* `follow`: the loop that goes through it.
-/

namespace NovaProva

variable {α : Type*}

/-- The addresses that are met from a start by following the links to their end. -/
inductive Links (next : α → Option (Option α)) : Option α → List α → Prop where
  | nil : Links next none []
  | cons {a : α} {start : Option α} {as : List α} (h : next a = some start)
      (hl : Links next start as) : Links next (some a) (a :: as)

namespace Links

variable {next next' : α → Option (Option α)} {start : Option α} {as bs : List α} {a n : α}

theorem unique (h : Links next start as) (h' : Links next start bs) : as = bs := by
  induction h generalizing bs with
  | nil => cases h'; rfl
  | cons ha _ ih =>
    cases h' with
    | cons ha' hl' =>
      rw [ha] at ha'
      obtain rfl := Option.some.inj ha'
      rw [ih hl']

theorem head_eq (h : Links next start as) : start = as.head? := by
  cases h <;> rfl

theorem tail (h : Links next start (a :: as)) : ∃ start', next a = some start' ∧
    Links next start' as := by
  cases h with
  | cons ha hl => exact ⟨_, ha, hl⟩

/-- Pointers of other cells do not matter. -/
theorem congr (h : Links next start as) (heq : ∀ a ∈ as, next' a = next a) :
    Links next' start as := by
  induction h with
  | nil => exact .nil
  | cons ha _ ih =>
    exact .cons ((heq _ List.mem_cons_self).trans ha)
      (ih fun b hb => heq b (List.mem_cons_of_mem _ hb))

/-- A cell linked in behind the last one. -/
theorem concat {init : List α} (h : Links next start (init ++ [a]))
    (heq : ∀ b ∈ init, next' b = next b) (ha : next' a = some (some n)) (hn : next' n = some none) :
    Links next' start (init ++ [a] ++ [n]) := by
  induction init generalizing start with
  | nil =>
    obtain rfl : start = some a := h.head_eq
    exact .cons ha (.cons hn .nil)
  | cons b init ih =>
    obtain rfl : start = some b := h.head_eq
    obtain ⟨start', hb, hrest⟩ := h.tail
    exact .cons ((heq b List.mem_cons_self).trans hb)
      (ih hrest fun c hc => heq c (List.mem_cons_of_mem _ hc))

end Links

/-- The loop `for (a = start ; a ; a = next a)`, in at most `fuel` turns. -/
def follow (next : α → Option (Option α)) : Nat → Option α → Option (List α)
  | _, none => some []
  | 0, some _ => none
  | fuel + 1, some a => (next a).bind fun start => (follow next fuel start).map (a :: ·)

theorem Links.follow_eq {next : α → Option (Option α)} {start : Option α} {as : List α}
    (h : Links next start as) {fuel : Nat} (hfuel : as.length ≤ fuel) :
    follow next fuel start = some as := by
  induction h generalizing fuel with
  | nil => cases fuel <;> rfl
  | cons ha _ ih =>
    obtain ⟨n, rfl⟩ := Nat.exists_eq_add_of_le' (Nat.lt_of_lt_of_le (Nat.zero_lt_succ _) hfuel)
    simp [follow, ha, ih (Nat.le_of_succ_le_succ hfuel)]

end NovaProva
