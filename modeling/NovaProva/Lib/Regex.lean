import Mathlib.Data.List.TakeWhile

/-!
# Lib — Regex

Extended regular expressions without alternatives: `^` at the front, characters, bracket expressions
and `.`, `.*`, groups, and `$` at the end.

* `Regex.parse`: an expression from its text.
* `Regex.exec`: the longest match from the front of a text, and where the group in it is.
* `exec_group`, `exec_line`: what expressions of the two usual shapes match.
-/

namespace Regex

/-! ### Sets of characters -/

/-- The characters of a bracket expression, as ranges; `.` is every character. -/
inductive CharSet where
  | any
  | ranges (rs : List (UInt8 × UInt8))
  deriving DecidableEq

/-- `tolower`, in the C locale. -/
def toLower (b : UInt8) : UInt8 := if 65 ≤ b ∧ b ≤ 90 then b + 32 else b

/-- `toupper`. -/
def toUpper (b : UInt8) : UInt8 := if 97 ≤ b ∧ b ≤ 122 then b - 32 else b

/-- The byte is in the set. -/
def CharSet.contains (b : UInt8) : CharSet → Bool
  | any       => true
  | ranges rs => rs.any fun r => r.1 ≤ b && b ≤ r.2

/-- Without regard to the case of letters, if `icase`. -/
def CharSet.accepts (icase : Bool) (set : CharSet) (b : UInt8) : Bool :=
  if icase then set.contains (toLower b) || set.contains (toUpper b) else set.contains b

/-! ### Expressions -/

/-- A piece of an expression: a byte of a set, as many as there are, a bracket of the group, or the
end. -/
inductive Item where
  | one (set : CharSet)
  | many (set : CharSet)
  | groupStart
  | groupEnd
  | lineEnd
  deriving DecidableEq

/-- The byte of a character. -/
def byte (c : Char) : UInt8 := UInt8.ofNat c.toNat

/-- The items behind the `^`; within a bracket expression, its ranges so far are `some`. -/
def parseItems : Option (List (UInt8 × UInt8)) → List Char → Option (List Item)
  | none, [] => some []
  | none, '$' :: [] => some [.lineEnd]
  | none, '(' :: cs => (parseItems none cs).map (Item.groupStart :: ·)
  | none, ')' :: cs => (parseItems none cs).map (Item.groupEnd :: ·)
  | none, '[' :: cs => parseItems (some []) cs
  | none, '.' :: '*' :: cs => (parseItems none cs).map (Item.many .any :: ·)
  | none, '.' :: cs => (parseItems none cs).map (Item.one .any :: ·)
  | none, c :: cs =>
      if c.isAlphanum ∨ c = '_' then
        (parseItems none cs).map (Item.one (.ranges [(byte c, byte c)]) :: ·)
      else none
  | some _, [] => none
  | some rs, ']' :: cs => (parseItems none cs).map (Item.one (.ranges rs) :: ·)
  | some rs, lo :: '-' :: hi :: cs => parseItems (some (rs ++ [(byte lo, byte hi)])) cs
  | some rs, c :: cs => parseItems (some (rs ++ [(byte c, byte c)])) cs

/-- `regcomp`, of these expressions. -/
def parse (re : String) : Option (List Item) :=
  match re.toList with
  | '^' :: cs => parseItems none cs
  | _         => none

/-! ### Matching -/

/-- Where a group is in the text, if the expression has one. -/
abbrev Group := Option (Nat × Nat)

/-- The items match from position `i` on; `so` is where a group that is open starts. -/
def matchItems (icase : Bool) : List Item → Nat → List UInt8 → Nat → Group → Option Group
  | [], _, _, _, g => some g
  | .one _ :: _, _, [], _, _ => none
  | .one set :: is, i, b :: bs, so, g =>
      if set.accepts icase b then matchItems icase is (i + 1) bs so g else none
  | .many set :: is, i, bs, so, g =>
      -- the longest first
      (List.range ((bs.takeWhile (set.accepts icase)).length + 1)).reverse.findSome? fun k =>
        matchItems icase is (i + k) (bs.drop k) so g
  | .groupStart :: is, i, bs, _, g => matchItems icase is i bs i g
  | .groupEnd :: is, i, bs, so, _ => matchItems icase is i bs so (some (so, i))
  | .lineEnd :: is, i, bs, so, g => if bs = [] then matchItems icase is i bs so g else none

/-- `regexec`: `none` for `REG_NOMATCH`. -/
def exec (icase : Bool) (re : List Item) (text : List UInt8) : Option Group :=
  matchItems icase re 0 text 0 none

/-- The text begins with characters of the sets. -/
def fits (icase : Bool) : List CharSet → List UInt8 → Bool
  | [],          _       => true
  | _ :: _,      []      => false
  | set :: sets, b :: bs => set.accepts icase b && fits icase sets bs

section
variable {icase : Bool} {sets heads : List CharSet} {text : List UInt8}

theorem length_le_of_fits (h : fits icase sets text = true) : sets.length ≤ text.length := by
  induction sets generalizing text with
  | nil => exact Nat.zero_le _
  | cons set sets ih =>
      cases text with
      | nil => cases h
      | cons b bs =>
          rw [fits, Bool.and_eq_true] at h
          exact Nat.succ_le_succ (ih h.2)

theorem fits_append (sets heads : List CharSet) (text : List UInt8) :
    fits icase (sets ++ heads) text =
      (fits icase sets text && fits icase heads (text.drop sets.length)) := by
  induction sets generalizing text with
  | nil => rfl
  | cons set sets ih =>
      cases text with
      | nil => rfl
      | cons b bs =>
          rw [List.cons_append, fits, fits, ih, Bool.and_assoc]
          rfl

/-- Single characters. -/
theorem matchItems_one (sets : List CharSet) (is : List Item) (i : Nat) (text : List UInt8)
    (so : Nat) (g : Group) :
    matchItems icase (sets.map .one ++ is) i text so g =
      if fits icase sets text then
        matchItems icase is (i + sets.length) (text.drop sets.length) so g
      else none := by
  induction sets generalizing i text with
  | nil => rfl
  | cons set sets ih =>
      cases text with
      | nil => rfl
      | cons b bs =>
          rw [List.map_cons, List.cons_append, matchItems, fits]
          by_cases hb : set.accepts icase b = true
          · rw [if_pos hb, ih, hb, Bool.true_and, List.length_cons, List.drop_succ_cons,
              Nat.add_right_comm, Nat.add_assoc]
          · rw [if_neg hb, eq_false_of_ne_true hb]
            rfl

/-- `.*` takes what is left. -/
theorem matchItems_many_any (i : Nat) (text : List UInt8) (so : Nat) (g : Group) :
    matchItems icase [.many .any, .groupEnd] i text so g = some (some (so, i + text.length)) := by
  have hall : (text.takeWhile (CharSet.any.accepts icase)).length = text.length := by
    rw [List.takeWhile_eq_self_iff.mpr]
    intro b _
    simp [CharSet.accepts, CharSet.contains]
  rw [matchItems, hall, List.range_succ, List.reverse_append, List.reverse_singleton,
    List.singleton_append, List.findSome?_cons]
  rfl

/-- Some characters and a group behind them, which goes to the end. -/
theorem exec_group (sets heads : List CharSet) (text : List UInt8) :
    exec icase
        (sets.map .one ++ (.groupStart :: (heads.map .one ++ [.many .any, .groupEnd]))) text =
      if fits icase (sets ++ heads) text then some (some (sets.length, text.length)) else none := by
  rw [exec, matchItems_one, fits_append]
  by_cases hsets : fits icase sets text = true
  · rw [if_pos hsets, hsets, Bool.true_and, matchItems, matchItems_one]
    by_cases hheads : fits icase heads (text.drop sets.length) = true
    · have hle := length_le_of_fits hsets
      have hle' := length_le_of_fits hheads
      rw [List.length_drop] at hle'
      rw [if_pos hheads, if_pos hheads, matchItems_many_any, List.length_drop, List.length_drop]
      simp only [Nat.zero_add, Option.some.injEq, Prod.mk.injEq, true_and]
      omega
    · rw [if_neg hheads, if_neg hheads]
  · rw [if_neg hsets, eq_false_of_ne_true hsets]
    rfl

/-- Some characters and no others. -/
theorem exec_line (sets : List CharSet) (text : List UInt8) :
    exec icase (sets.map .one ++ [.lineEnd]) text =
      if fits icase sets text ∧ text.length = sets.length then some none else none := by
  rw [exec, matchItems_one]
  by_cases hsets : fits icase sets text = true
  · have hle := length_le_of_fits hsets
    rw [if_pos hsets, matchItems]
    by_cases hlen : text.length = sets.length
    · rw [if_pos (List.drop_eq_nil_iff.mpr hlen.le), if_pos ⟨hsets, hlen⟩]
      rfl
    · have hdrop : text.drop sets.length ≠ [] := fun hnil =>
        hlen (Nat.le_antisymm (List.drop_eq_nil_iff.mp hnil) hle)
      rw [if_neg hdrop, if_neg fun h => hlen h.2]
  · rw [if_neg hsets, if_neg fun h => hsets h.1]

end

end Regex
