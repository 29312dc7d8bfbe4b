import Mathlib.Algebra.Group.Nat.Defs
import Mathlib.Order.Lattice
import Mathlib.Data.List.Basic

/-!
# Core — Types

`np/types.hxx`: the result of a test and the kinds of test function.  `merge` combines the
results of one test by their ordinal, so a test's result is the worst thing reported about it.
-/

namespace NovaProva

/-- `result_t`, in the order its ordinals give.  `other n` is a number above `R_FAIL`, which the
code casts to a `result_t` when it comes from the event pipe and keeps as it is. -/
inductive Result where
  | unknown
  | pass
  | notApplicable
  | fail
  | other (n : Fin (2 ^ 32 - 4))
  deriving DecidableEq, Repr

namespace Result

/-- The ordinal of a result, which is also what is written to the event pipe. -/
def code : Result → Nat
  | unknown       => 0
  | pass          => 1
  | notApplicable => 2
  | fail          => 3
  | other n       => n.val + 4

/-- `(result_t)n` of an `unsigned int`. -/
def ofCode : Nat → Result
  | 0     => unknown
  | 1     => pass
  | 2     => notApplicable
  | 3     => fail
  | n + 4 => other ⟨n % (2 ^ 32 - 4), Nat.mod_lt _ (by decide)⟩

/-- A result survives the pipe. -/
@[simp] theorem ofCode_code (r : Result) : ofCode r.code = r := by
  cases r with
  | other n =>
      show other ⟨n.val % (2 ^ 32 - 4), _⟩ = other n
      simp only [Nat.mod_eq_of_lt n.isLt]
  | _ => rfl

/-- Results have different numbers. -/
theorem code_injective {r s : Result} (h : r.code = s.code) : r = s := by
  rw [← ofCode_code r, h, ofCode_code]

/-- Their numbers have 32 bits. -/
theorem code_lt (r : Result) : r.code < 2 ^ 32 := by
  cases r with
  | other n => exact Nat.add_lt_of_lt_sub n.isLt
  | _ => decide

/-- `merge`: the greater ordinal wins. -/
def merge (r₁ r₂ : Result) : Result := if r₁.code > r₂.code then r₁ else r₂

/-- So it is the maximum. -/
theorem code_merge (r s : Result) : (merge r s).code = max r.code s.code := by
  rw [merge]
  split <;> omega

@[simp] theorem unknown_merge (r : Result) : merge unknown r = r := if_neg (Nat.not_lt_zero _)

/-- The order of merges does not matter. -/
theorem merge_assoc (a b c : Result) : merge (merge a b) c = merge a (merge b c) :=
  code_injective (by simp only [code_merge, max_assoc])

/-- It does not matter which of two results comes first. -/
theorem merge_comm (a b : Result) : merge a b = merge b a :=
  code_injective (by simp only [code_merge, max_comm])

@[simp] theorem merge_self (r : Result) : merge r r = r :=
  code_injective (by rw [code_merge, max_self])

@[simp] theorem merge_unknown (r : Result) : merge r unknown = r := by
  rw [merge_comm, unknown_merge]

/-- One of the four. -/
def IsNamed (r : Result) : Prop := r.code ≤ fail.code

instance (r : Result) : Decidable r.IsNamed := inferInstanceAs (Decidable (_ ≤ _))

/-- Results with names merge to one with a name. -/
theorem IsNamed.merge {r s : Result} (hr : r.IsNamed) (hs : s.IsNamed) :
    (Result.merge r s).IsNamed := by
  rw [IsNamed, code_merge]
  exact max_le hr hs

/-- Nothing that has a name is worse than `R_FAIL`. -/
theorem IsNamed.fail_merge {r : Result} (h : r.IsNamed) : Result.merge fail r = fail :=
  code_injective (by rw [code_merge, max_eq_left h])

/-- No result with a name is above a failure. -/
theorem IsNamed.eq_fail {r : Result} (h : r.IsNamed) (hle : fail.code ≤ r.code) : r = fail :=
  code_injective (le_antisymm h hle)

/-- A merge is not below what is merged. -/
theorem le_code_merge (r s : Result) : r.code ≤ (merge r s).code :=
  (code_merge r s).symm ▸ le_max_left ..

theorem IsNamed.merge_fail {r : Result} (h : r.IsNamed) : Result.merge r fail = fail := by
  rw [merge_comm, h.fail_merge]

/-- A result that is known stays known. -/
theorem merge_ne_unknown {r s : Result} (h : r ≠ unknown) : merge r s ≠ unknown := by
  intro heq
  have hle := le_code_merge r s
  rw [heq] at hle
  exact h (code_injective (Nat.le_zero.mp hle))

/-- `R_PASS` makes no known result worse. -/
theorem merge_pass {r : Result} (h : r ≠ unknown) : merge r pass = r := by
  refine code_injective ?_
  rw [code_merge]
  refine max_eq_left (Nat.one_le_iff_ne_zero.mpr fun hzero => h (code_injective hzero))

/-- The merge of a list of results, `R_UNKNOWN` for none. -/
def mergeAll (rs : List Result) : Result := rs.foldl merge unknown

/-- Results merged into one are merged with all of them. -/
theorem foldl_merge (r : Result) (rs : List Result) :
    rs.foldl merge r = merge r (mergeAll rs) := by
  induction rs generalizing r with
  | nil => simp [mergeAll]
  | cons a rs ih =>
      rw [mergeAll, List.foldl_cons, List.foldl_cons, ih, ih, unknown_merge, merge_assoc]

@[simp] theorem mergeAll_nil : mergeAll [] = unknown := rfl

@[simp] theorem mergeAll_cons (r : Result) (rs : List Result) :
    mergeAll (r :: rs) = merge r (mergeAll rs) := by
  rw [mergeAll, List.foldl_cons, unknown_merge, foldl_merge]

/-- Two lists of results. -/
theorem mergeAll_append (rs ss : List Result) :
    mergeAll (rs ++ ss) = merge (mergeAll rs) (mergeAll ss) := by
  rw [mergeAll, List.foldl_append, foldl_merge]
  rfl

end Result

/-- `functype_t`: what a function discovered by reflection is for. -/
inductive FuncType where
  | unknown
  | before
  | test
  | after
  | mock
  | param
  deriving DecidableEq, Repr

/-- The ordinal of a kind of function. -/
def FuncType.code : FuncType → UInt32
  | unknown => 0
  | before  => 1
  | test    => 2
  | after   => 3
  | mock    => 4
  | param   => 5

end NovaProva
