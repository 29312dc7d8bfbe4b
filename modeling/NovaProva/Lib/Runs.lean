import Mathlib.Logic.Relation

/-!
# Lib — Runs

Transition systems given by an executable step function `step : σ → ℓ → Option σ`: a label
resolves every choice, and `none` says that the label is not enabled.  `Run step P s t` is a run
from `s` to `t` each of whose steps `(u, l)` satisfies `P u l`, a condition on the state before the
step and its label.
-/

variable {σ ℓ : Type}

/-- A run whose steps all satisfy `P`. -/
inductive Run (step : σ → ℓ → Option σ) (P : σ → ℓ → Prop) (s : σ) : σ → Prop where
  | refl : Run step P s s
  | snoc {t u : σ} {l : ℓ} (h : Run step P s t) (hP : P t l) (hs : step t l = some u) :
      Run step P s u

namespace Run

variable {step : σ → ℓ → Option σ} {P Q : σ → ℓ → Prop} {s t : σ}

/-- **The invariant rule**: what holds at the start and is kept by every step allowed by `P`
holds at the end of every run. -/
theorem invariant {I : σ → Prop} (h : Run step P s t) (hs : I s)
    (hI : ∀ u l v, I u → P u l → step u l = some v → I v) : I t := by
  induction h with
  | refl => exact hs
  | snoc _ hP hstep ih => exact hI _ _ _ ih hP hstep

theorem single {l : ℓ} (hP : P s l) (hs : step s l = some t) : Run step P s t := .snoc .refl hP hs

theorem trans {u : σ} (h : Run step P s t) (h' : Run step P t u) : Run step P s u := by
  induction h' with
  | refl => exact h
  | snoc _ hP hstep ih => exact .snoc ih hP hstep

/-- A condition may be weakened along a run. -/
theorem mono (h : Run step P s t) (hPQ : ∀ u l, P u l → Q u l) : Run step Q s t := by
  induction h with
  | refl => exact .refl
  | snoc _ hP hstep ih => exact .snoc ih (hPQ _ _ hP) hstep

/-- An invariant may be used in the condition of the steps that keep it. -/
theorem strengthen {I : σ → Prop} (h : Run step P s t) (hs : I s)
    (hI : ∀ u l v, I u → P u l → step u l = some v → I v) :
    Run step (fun u l => P u l ∧ I u) s t := by
  induction h with
  | refl => exact .refl
  | snoc h hP hstep ih => exact .snoc ih ⟨hP, h.invariant hs hI⟩ hstep

end Run

/-- Executes a list of labels, checking the condition of each step. -/
def execute (step : σ → ℓ → Option σ) (P : σ → ℓ → Bool) : σ → List ℓ → Option σ
  | s, []      => some s
  | s, l :: ls => if P s l then (step s l).bind fun t => execute step P t ls else none

theorem run_of_execute {step : σ → ℓ → Option σ} {P : σ → ℓ → Bool} {s t u : σ} {ls : List ℓ}
    (hr : Run step (fun v l => P v l = true) s t) (h : execute step P t ls = some u) :
    Run step (fun v l => P v l = true) s u := by
  induction ls generalizing t with
  | nil => cases h; exact hr
  | cons l ls ih =>
      rw [execute] at h
      split at h
      case isTrue hP =>
        obtain ⟨v, hv, h⟩ := Option.bind_eq_some_iff.mp h
        exact ih (hr.snoc hP hv) h
      · cases h

/-- A successful execution is a run, and its end can be tested. -/
theorem Run.of_execute {step : σ → ℓ → Option σ} {P : σ → ℓ → Bool} {s : σ} {q : σ → Bool}
    {ls : List ℓ} (h : (execute step P s ls).any q = true) :
    ∃ t, Run step (fun u l => P u l = true) s t ∧ q t = true := by
  obtain ⟨t, ht, hq⟩ := (Option.any_eq_true q _).mp h
  exact ⟨t, run_of_execute .refl ht, hq⟩

/-! ### Histories -/

section
variable {η : Type}

/-- The system that also keeps what `note` says of each step, oldest first. -/
def withHistory (step : σ → ℓ → Option σ) (note : σ → ℓ → σ → List η) (x : σ × List η) (l : ℓ) :
    Option (σ × List η) :=
  (step x.1 l).map fun t => (t, x.2 ++ note x.1 l t)

theorem withHistory_eq_some {step : σ → ℓ → Option σ} {note : σ → ℓ → σ → List η}
    {x y : σ × List η} {l : ℓ} :
    withHistory step note x l = some y ↔ step x.1 l = some y.1 ∧ y.2 = x.2 ++ note x.1 l y.1 := by
  rw [withHistory, Option.map_eq_some_iff]
  constructor
  · rintro ⟨t, ht, rfl⟩
    exact ⟨ht, rfl⟩
  · rintro ⟨ht, hh⟩
    exact ⟨y.1, ht, by rw [← hh]⟩

/-- Every entry of a history may stand behind those before it. -/
def Each (ok : List η → η → Prop) (h : List η) : Prop :=
  ∀ pre n post, h = pre ++ n :: post → ok pre n

theorem each_nil (ok : List η → η → Prop) : Each ok [] := by
  intro pre n post h
  cases pre <;> cases h

theorem each_singleton {ok : List η → η → Prop} {n : η} (h : ok [] n) : Each ok [n] := by
  intro pre m post heq
  cases pre with
  | nil =>
      cases heq
      exact h
  | cons a pre => cases pre <;> cases heq

theorem each_cons {ok : List η → η → Prop} {n : η} {h : List η} :
    Each ok (n :: h) ↔ ok [] n ∧ Each (fun pre m => ok (n :: pre) m) h := by
  constructor
  · intro hall
    exact ⟨hall [] n h rfl, fun pre m post heq => hall (n :: pre) m post (by rw [heq]; rfl)⟩
  · rintro ⟨hn, hh⟩ pre m post heq
    cases pre with
    | nil =>
        cases heq
        exact hn
    | cons k pre =>
        obtain ⟨rfl, rfl⟩ := List.cons.inj heq
        exact hh pre m post rfl

/-- An entry of two lists is in the first or behind it. -/
theorem append_eq_append_cons {h ns pre post : List η} {n : η} (heq : h ++ ns = pre ++ n :: post) :
    (∃ as, h = pre ++ n :: as) ∨ ∃ as, pre = h ++ as ∧ ns = as ++ n :: post := by
  rcases List.append_eq_append_iff.mp heq with ⟨as, rfl, hpost⟩ | ⟨as, rfl, hpost⟩
  · exact .inr ⟨as, rfl, hpost⟩
  · cases as with
    | nil => exact .inr ⟨[], by simp, hpost.symm⟩
    | cons a as =>
        obtain ⟨rfl, -⟩ := List.cons.inj hpost
        exact .inl ⟨as, rfl⟩

theorem Each.append {ok : List η → η → Prop} {h ns : List η} (hh : Each ok h)
    (hns : Each (fun pre n => ok (h ++ pre) n) ns) : Each ok (h ++ ns) := by
  intro pre n post heq
  rcases append_eq_append_cons heq with ⟨as, rfl⟩ | ⟨as, rfl, hns'⟩
  · exact hh pre n as rfl
  · exact hns as n post hns'

/-- The entries that the elements of a list give, one after the other. -/
theorem each_filterMap {α : Type} {ok : List η → η → Prop} {f : α → Option η} {as : List α}
    (h : ∀ bs a cs n, as = bs ++ a :: cs → f a = some n → ok (bs.filterMap f) n) :
    Each ok (as.filterMap f) := by
  intro pre n post heq
  obtain ⟨bs, cs, rfl, rfl, hcs⟩ := List.filterMap_eq_append_iff.mp heq
  obtain ⟨ds, a, es, rfl, hds, ha, -⟩ := List.filterMap_eq_cons_iff.mp hcs
  have hok := h (bs ++ ds) a es n (by rw [List.append_assoc]) ha
  rwa [List.filterMap_append, List.filterMap_eq_nil_iff.mpr hds, List.append_nil] at hok

end
