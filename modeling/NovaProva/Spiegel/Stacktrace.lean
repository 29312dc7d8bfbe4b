import NovaProva.Spiegel.CallLength
import Mathlib.Logic.Relation

/-!
# Spiegel — Stack traces

`get_stacktrace` of `np/spiegel/platform/x86x.cxx`, which follows the saved frame pointers of a
stack, whatever its memory holds.  It stops at a frame whose saved pointer is null, or less than the
frame itself, or more than 16384 bytes beyond it.  None of the three stops it at a frame that is
saved in itself.

* `frames_ascend_iff`: the walk ends, going up at every step, exactly if it reaches no such frame.
-/

namespace NovaProva

/-- The `unsigned long` at an address. -/
def loadLong (mem : UInt64 → UInt8) (a : UInt64) : UInt64 :=
  UInt64.ofNat (Bytes.leNat ((List.range 8).map fun i => mem (a + UInt64.ofNat i)))

/-- The address of the call that a frame returns behind. -/
def frameAddress (mem : UInt64 → UInt8) (bp : UInt64) : UInt64 :=
  let ra := loadLong mem (bp + 8)
  if ra > 4096 then ra - UInt64.ofNat (callInstructionLengthForRa mem ra) else ra

/-- The frame to which the walk goes on, if it does. -/
def nextFrame (mem : UInt64 → UInt8) (bp : UInt64) : Option UInt64 :=
  let nextbp := loadLong mem bp
  if nextbp = 0 then none
  else if nextbp < bp then none
  else if nextbp - bp > 16384 then none
  else some nextbp

/-- `get_stacktrace` from the frame pointer `bp`, for so many iterations of its loop; `none` if it
is still walking behind them. -/
def getStacktrace (mem : UInt64 → UInt8) : Nat → UInt64 → Option (List UInt64)
  | 0,     _  => none
  | n + 1, bp =>
      match nextFrame mem bp with
      | none        => some [frameAddress mem bp]
      | some nextbp => (getStacktrace mem n nextbp).map (frameAddress mem bp :: ·)

/-- The walk comes to the frame `b`. -/
def Reached (mem : UInt64 → UInt8) (bp b : UInt64) : Prop :=
  Relation.ReflTransGen (fun a c => nextFrame mem a = some c) bp b

/-- The walk returns, and each iteration that does not end it goes up, by no more than 16384. -/
structure FramesAscend (mem : UInt64 → UInt8) (bp : UInt64) : Prop where
  returns : ∃ n stack, getStacktrace mem n bp = some stack
  ascends : ∀ b nextbp, Reached mem bp b → nextFrame mem b = some nextbp →
    b < nextbp ∧ nextbp - b ≤ 16384

section
variable {mem : UInt64 → UInt8} {bp b : UInt64}

/-- One step goes to the saved frame pointer, which is not lower. -/
theorem nextFrame_eq_some {nextbp : UInt64} (h : nextFrame mem bp = some nextbp) :
    nextbp = loadLong mem bp ∧ nextbp ≠ 0 ∧ bp ≤ nextbp ∧ nextbp - bp ≤ 16384 := by
  simp only [nextFrame] at h
  split_ifs at h with hnull hlow hfar
  obtain rfl : loadLong mem bp = nextbp := Option.some.inj h
  exact ⟨rfl, hnull, UInt64.not_lt.mp hlow, UInt64.not_lt.mp hfar⟩

/-- A frame that is saved in itself. -/
theorem nextFrame_self (hself : loadLong mem b = b) (hb : b ≠ 0) : nextFrame mem b = some b := by
  have hzero : ¬ (0 : UInt64) > 16384 := by decide
  simp only [nextFrame, hself, sub_self]
  rw [if_neg hb, if_neg (UInt64.lt_irrefl b), if_neg hzero]

/-- The walk does not end there. -/
theorem getStacktrace_self (hself : loadLong mem b = b) (hb : b ≠ 0) (n : Nat) :
    getStacktrace mem n b = none := by
  induction n with
  | zero => rfl
  | succ n ih => simp [getStacktrace, nextFrame_self hself hb, ih]

/-- A walk that returns does so from every frame it reaches. -/
theorem returns_of_reached (h : Reached mem bp b)
    (hreturns : ∃ n stack, getStacktrace mem n bp = some stack) :
    ∃ n stack, getStacktrace mem n b = some stack := by
  induction h with
  | refl => exact hreturns
  | tail _ hstep ih =>
      obtain ⟨n, stack, hstack⟩ := ih
      cases n with
      | zero => cases hstack
      | succ n =>
          rw [getStacktrace, hstep] at hstack
          obtain ⟨stack', hstack', -⟩ := Option.map_eq_some_iff.mp hstack
          exact ⟨n, stack', hstack'⟩

/-- No frame that the walk reaches is saved in itself. -/
def NoSelfFrame (mem : UInt64 → UInt8) (bp : UInt64) : Prop :=
  ∀ b, Reached mem bp b → loadLong mem b = b → b = 0

/-- **A step** then goes up. -/
theorem ascends_of_noSelfFrame (h : NoSelfFrame mem bp) (hb : Reached mem bp b) {nextbp : UInt64}
    (hstep : nextFrame mem b = some nextbp) : b < nextbp ∧ nextbp - b ≤ 16384 := by
  obtain ⟨hsaved, hnull, hle, hfar⟩ := nextFrame_eq_some hstep
  refine ⟨UInt64.lt_of_le_of_ne hle fun heq => hnull ?_, hfar⟩
  rw [← heq]
  exact h b hb (hsaved.symm.trans heq.symm)

/-- **The walk** then ends, since it cannot go up for ever. -/
theorem returns_of_noSelfFrame (h : NoSelfFrame mem bp) (hb : Reached mem bp b) :
    ∃ n stack, getStacktrace mem n b = some stack := by
  induction hroom : 2 ^ 64 - b.toNat using Nat.strong_induction_on generalizing b with
  | _ room ih =>
      cases hstep : nextFrame mem b with
      | none => exact ⟨1, [frameAddress mem b], by rw [getStacktrace, hstep]⟩
      | some nextbp =>
          have hlt := UInt64.lt_iff_toNat_lt.mp (ascends_of_noSelfFrame h hb hstep).1
          have hbound := nextbp.toNat_lt
          obtain ⟨n, stack, hstack⟩ :=
            ih (2 ^ 64 - nextbp.toNat) (by omega) (hb.tail hstep) rfl
          exact ⟨n + 1, frameAddress mem b :: stack, by simp [getStacktrace, hstep, hstack]⟩

end

/-- **The walk of the frames** ends, going up at every step, exactly if it reaches no frame that is
saved in itself. -/
theorem frames_ascend_iff (mem : UInt64 → UInt8) (bp : UInt64) :
    FramesAscend mem bp ↔ NoSelfFrame mem bp := by
  constructor
  · intro h b hb hself
    by_contra hne
    obtain ⟨n, stack, hstack⟩ := returns_of_reached hb h.returns
    rw [getStacktrace_self hself hne] at hstack
    cases hstack
  · intro h
    exact ⟨returns_of_noSelfFrame h .refl, fun _ _ hb hstep => ascends_of_noSelfFrame h hb hstep⟩

/-- A frame at 4096 that is saved in itself. -/
def selfFrame (a : UInt64) : UInt8 := if a = 4097 then 0x10 else 0

/-- From it the walk does not return. -/
theorem selfFrame_walks_on : ¬ ∀ (mem : UInt64 → UInt8) (bp : UInt64), FramesAscend mem bp := by
  intro hall
  obtain ⟨n, stack, hstack⟩ := (hall selfFrame 4096).returns
  have hself : loadLong selfFrame 4096 = 4096 := by decide +kernel
  rw [getStacktrace_self hself (by decide)] at hstack
  cases hstack

end NovaProva
