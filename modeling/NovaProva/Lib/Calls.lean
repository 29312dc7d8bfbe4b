import Mathlib.Logic.Basic

/-!
# Lib — Calls

Programs that call functions, over a machine that decides what becomes of a call.  What a program
does is a tree: it makes requests and calls, of functions `Fn` with arguments `Arg`, until it
returns a value or leaves by a jump out of all its calls.  The body of a call gives what any
function does in its place, so that the machine may run another one.

`CallMachine.Simulates` compares two machines, and `Simulates.run` is the rule for whole programs:
as long as the second does not stop, the first does what it does.
-/

variable {Op Fn Arg Val : Type}

/-- What a program does. -/
inductive Activity (Op Fn Arg Val : Type) where
  | returns (v : Val)
  | throws
  | act (op : Op) (rest : Activity Op Fn Arg Val)
  /-- a call of `f`; `body g b` is what the function `g` does with the arguments `b` -/
  | call (f : Fn) (a : Arg) (body : Fn → Arg → Activity Op Fn Arg Val)
      (rest : Val → Activity Op Fn Arg Val)

/-- How it ends; a machine that stops has no next state. -/
inductive Ending (Val : Type) where
  | returned (v : Val)
  | threw
  | stopped
  deriving DecidableEq

/-- What becomes of a call: a function runs in a frame, or it returns at once. -/
inductive Entered (Fn Arg Val Frame : Type) where
  | runs (g : Fn) (b : Arg) (frame : Frame)
  | returns (v : Val)

/-- A machine with the states `σ`; a request is told the frames that are open, innermost first. -/
structure CallMachine (Op Fn Arg Val Frame σ : Type) where
  act : List Frame → Op → σ → Option σ
  enter : Fn → Arg → σ → Option (Entered Fn Arg Val Frame × σ)
  leave : Frame → Val → σ → Option (Val × σ)

namespace CallMachine

variable {Frame Frame' σ τ : Type}

/-- A program runs on the machine, with the frames `ks` open. -/
def run (m : CallMachine Op Fn Arg Val Frame σ) :
    List Frame → Activity Op Fn Arg Val → σ → Ending Val × σ
  | _,  .returns v, s => (.returned v, s)
  | _,  .throws, s => (.threw, s)
  | ks, .act op rest, s =>
      match m.act ks op s with
      | none    => (.stopped, s)
      | some s' => m.run ks rest s'
  | ks, .call f a body rest, s =>
      match m.enter f a s with
      | none => (.stopped, s)
      | some (.returns v, s') => m.run ks (rest v) s'
      | some (.runs g b k, s') =>
          match m.run (k :: ks) (body g b) s' with
          | (.returned v, t) =>
              match m.leave k v t with
              | none => (.stopped, t)
              | some (v', t') => m.run ks (rest v') t'
          | (.threw, t) => (.threw, t)
          | (.stopped, t) => (.stopped, t)

/-- Programs that run one after the other, whether those before them have returned or thrown. -/
def runAll (m : CallMachine Op Fn Arg Val Frame σ) :
    List (Activity Op Fn Arg Val) → σ → List (Ending Val) × σ
  | [],      s => ([], s)
  | d :: ds, s =>
      let p := m.run [] d s
      let q := m.runAll ds p.2
      (p.1 :: q.1, q.2)

/-- Each step of `n`, from states related by `R` under its open frames, is one of `m`. -/
structure Simulates (m : CallMachine Op Fn Arg Val Frame σ)
    (n : CallMachine Op Fn Arg Val Frame' τ) (Matches : Frame → Frame' → Prop)
    (R : List Frame' → σ → τ → Prop) : Prop where
  act : ∀ ks {ls op s t t'}, R ls s t → n.act ls op t = some t' →
    ∃ s', m.act ks op s = some s' ∧ R ls s' t'
  returns : ∀ {ls f a s t v t'}, R ls s t → n.enter f a t = some (.returns v, t') →
    ∃ s', m.enter f a s = some (.returns v, s') ∧ R ls s' t'
  runs : ∀ {ls f a s t g b l t'}, R ls s t → n.enter f a t = some (.runs g b l, t') →
    ∃ k s', m.enter f a s = some (.runs g b k, s') ∧ Matches k l ∧ R (l :: ls) s' t'
  leave : ∀ {k l ls s t v v' t'}, Matches k l → R (l :: ls) s t →
    n.leave l v t = some (v', t') → ∃ s', m.leave k v s = some (v', s') ∧ R ls s' t'
  /-- a jump leaves the innermost frame -/
  throws : ∀ {l ls s t}, R (l :: ls) s t → R ls s t

namespace Simulates

variable {m : CallMachine Op Fn Arg Val Frame σ} {n : CallMachine Op Fn Arg Val Frame' τ}
  {Matches : Frame → Frame' → Prop} {R : List Frame' → σ → τ → Prop}

/-- **The simulation rule**: a program that `n` runs without stopping ends on `m` as it does on
`n`, in related states. -/
theorem run (h : m.Simulates n Matches R) (d : Activity Op Fn Arg Val) (ks : List Frame)
    {ls : List Frame'} {s : σ} {t : τ} (hR : R ls s t) (hgo : (n.run ls d t).1 ≠ .stopped) :
    (m.run ks d s).1 = (n.run ls d t).1 ∧ R ls (m.run ks d s).2 (n.run ls d t).2 := by
  induction d generalizing ks ls s t with
  | returns v => exact ⟨rfl, hR⟩
  | throws => exact ⟨rfl, hR⟩
  | act op rest ih =>
      rw [CallMachine.run] at hgo ⊢
      rw [CallMachine.run]
      cases hn : n.act ls op t with
      | none =>
          rw [hn] at hgo
          exact absurd rfl hgo
      | some t' =>
          obtain ⟨s', hm, hR'⟩ := h.act ks hR hn
          rw [hn] at hgo
          rw [hm]
          exact ih ks hR' hgo
  | call f a body rest ihBody ihRest =>
      rw [CallMachine.run] at hgo ⊢
      rw [CallMachine.run]
      rcases hn : n.enter f a t with _ | ⟨⟨g, b, l⟩ | v, t'⟩
      · rw [hn] at hgo
        exact absurd rfl hgo
      · obtain ⟨k, s', hm, hkl, hR'⟩ := h.runs hR hn
        rw [hn] at hgo
        rw [hm]
        dsimp only at hgo ⊢
        have hbody := ihBody g b (k :: ks) hR'
        generalize n.run (l :: ls) (body g b) t' = q at hgo hbody ⊢
        generalize m.run (k :: ks) (body g b) s' = p at hbody ⊢
        obtain ⟨e, t₁⟩ := q
        obtain ⟨e', s₁⟩ := p
        cases e with
        | stopped => exact absurd rfl hgo
        | threw =>
            obtain ⟨rfl, hR₁⟩ := hbody (by simp)
            exact ⟨rfl, h.throws hR₁⟩
        | returned v =>
            obtain ⟨rfl, hR₁⟩ := hbody (by simp)
            dsimp only at hgo ⊢
            rcases hl : n.leave l v t₁ with _ | ⟨v', t₂⟩
            · rw [hl] at hgo
              exact absurd rfl hgo
            · obtain ⟨s₂, hm₂, hR₂⟩ := h.leave hkl hR₁ hl
              rw [hl] at hgo
              rw [hm₂]
              exact ihRest v' ks hR₂ hgo
      · obtain ⟨s', hm, hR'⟩ := h.returns hR hn
        rw [hn] at hgo
        rw [hm]
        exact ihRest v ks hR' hgo

/-- Programs one after the other. -/
theorem runAll (h : m.Simulates n Matches R) (ds : List (Activity Op Fn Arg Val)) {s : σ} {t : τ}
    (hR : R [] s t) (hgo : .stopped ∉ (n.runAll ds t).1) :
    (m.runAll ds s).1 = (n.runAll ds t).1 ∧ R [] (m.runAll ds s).2 (n.runAll ds t).2 := by
  induction ds generalizing s t with
  | nil => exact ⟨rfl, hR⟩
  | cons d ds ih =>
      rw [CallMachine.runAll] at hgo ⊢
      rw [CallMachine.runAll]
      obtain ⟨hd, hds⟩ := not_or.mp (mt List.mem_cons.mpr hgo)
      obtain ⟨he, hR'⟩ := h.run d [] hR (Ne.symm hd)
      obtain ⟨hes, hR''⟩ := ih hR' hds
      exact ⟨by rw [he, hes], hR''⟩

end Simulates

end CallMachine
