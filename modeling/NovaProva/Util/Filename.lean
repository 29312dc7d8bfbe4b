import Mathlib.Data.List.Basic

/-!
# Util — File names

`np/util/filename.cxx`: a path made absolute, by taking its components one after the other.  A `..`
cuts off what is behind the last slash; where there is none, the position not found goes to
`resize`, which throws.

* `Filename.makeAbsoluteTo`, with what `getcwd` returns as a parameter.
* `makeAbsoluteToDir_ok_iff`: it returns unless a `..` comes where no slash is left.
-/

namespace NovaProva

/-- `filename_t`: the bytes of the string. -/
abbrev Filename := List UInt8

/-- What ends `make_absolute_to` other than a return. -/
inductive FilenameError where
  /-- `assert(t != string::npos)` -/
  | assertion
  /-- `std::length_error` of `resize(string::npos)` -/
  | lengthError
  deriving DecidableEq

namespace Filename

/-- The separator. -/
def slash : UInt8 := 0x2f
/-- The byte that `.` and `..` are made of. -/
def dot : UInt8 := 0x2e

/-- `is_absolute`. -/
def isAbsolute (f : Filename) : Bool := f.head? = some slash

/-- `find_last_of('/')`. -/
def findLastOf : Filename → Option Nat
  | []     => none
  | c :: f =>
      match findLastOf f with
      | some p => some (p + 1)
      | none   => if c = slash then some 0 else none

/-- `is_path_tail`. -/
def isPathTail (path file : Filename) : Bool :=
  decide (file.length ≤ path.length) && path.drop (path.length - file.length) == file &&
    (path.length == file.length || path[path.length - file.length - 1]? == some slash)

/-- What `tok_t::next` returns one after the other, with the separator `/`. -/
def parts (f : Filename) : List Filename := (f.splitOn slash).filter (· ≠ [])

/-- A round of the loop over the parts. -/
def appendPart (abs part : Filename) : Except FilenameError Filename :=
  if part = [dot] then .ok abs
  else if part = [dot, dot] then
    match findLastOf abs with
    | none       => .error .lengthError
    | some 0     => .ok abs
    | some (p+1) => .ok (abs.take (p + 1))
  else .ok ((if abs.length > 1 then abs ++ [slash] else abs) ++ part)

/-- The loop over the components of a name. -/
def appendParts (abs : Filename) (ps : List Filename) : Except FilenameError Filename :=
  ps.foldlM appendPart abs

/-- `make_absolute_to`; `currentDir` is what `current_dir` returns. -/
def makeAbsoluteTo (currentDir f absfile : Filename) (isdir : Bool) :
    Except FilenameError Filename :=
  if f.isAbsolute then appendParts [slash] f.parts
  else if absfile.length > 0 then
    if isdir then appendParts absfile f.parts
    else if absfile.isPathTail f then .ok absfile
    else
      match findLastOf absfile with
      | none   => .error .assertion
      | some t => appendParts (absfile.take t) f.parts
  else appendParts currentDir f.parts

/-- `make_absolute_to_dir`. -/
def makeAbsoluteToDir (currentDir f absdir : Filename) : Except FilenameError Filename :=
  makeAbsoluteTo currentDir f absdir true

/-! ### When it returns -/

/-- What the parts of `f` are appended to. -/
def start (currentDir f absdir : Filename) : Filename :=
  if f.isAbsolute then [slash] else if absdir.length > 0 then absdir else currentDir

theorem makeAbsoluteToDir_eq (currentDir f absdir : Filename) :
    makeAbsoluteToDir currentDir f absdir = appendParts (start currentDir f absdir) f.parts := by
  unfold makeAbsoluteToDir makeAbsoluteTo start
  split
  · rfl
  · split <;> rfl

/-- There is no last slash where there is none. -/
theorem findLastOf_eq_none_iff (f : Filename) : findLastOf f = none ↔ slash ∉ f := by
  induction f with
  | nil => simp [findLastOf]
  | cons c f ih =>
      rw [findLastOf, List.mem_cons, not_or]
      cases hf : findLastOf f with
      | some p =>
          have hmem : slash ∈ f := by
            by_contra hno
            rw [ih.mpr hno] at hf
            cases hf
          simp [hmem]
      | none =>
          have hno := ih.mp hf
          by_cases hc : c = slash
          · simp [hc]
          · simp [hc, hno, Ne.symm hc]

/-- Some `..` of the parts comes where what is built of the parts before it, from `abs` on, has no
slash. -/
def Climbs (abs : Filename) (ps : List Filename) : Prop :=
  ∃ pre post built, ps = pre ++ [dot, dot] :: post ∧ appendParts abs pre = .ok built ∧
    slash ∉ built

/-- A component throws if it is a `..` with no slash before it. -/
theorem appendPart_ok_iff (abs part : Filename) :
    (∃ f, appendPart abs part = .ok f) ↔ ¬ (part = [dot, dot] ∧ slash ∉ abs) := by
  unfold appendPart
  split
  case isTrue h =>
    subst h
    simp [dot]
  case isFalse =>
    split
    case isTrue h =>
      rw [← findLastOf_eq_none_iff]
      rcases findLastOf abs with - | - | p <;> simp [h]
    case isFalse h => simp [h]

/-- The way climbs out at the first component or behind it. -/
theorem climbs_cons {abs abs' part : Filename} (h : appendPart abs part = .ok abs')
    (ps : List Filename) : Climbs abs (part :: ps) ↔ Climbs abs' ps := by
  constructor
  · rintro ⟨pre, post, built, hps, hbuilt, hno⟩
    cases pre with
    | nil =>
        -- the first part does not climb, since it was appended
        cases hps
        cases hbuilt
        exact absurd ⟨rfl, hno⟩ ((appendPart_ok_iff abs _).mp ⟨abs', h⟩)
    | cons q pre =>
        cases hps
        refine ⟨pre, post, built, rfl, ?_, hno⟩
        rwa [appendParts, List.foldlM_cons, h] at hbuilt
  · rintro ⟨pre, post, built, rfl, hbuilt, hno⟩
    refine ⟨part :: pre, post, built, rfl, ?_, hno⟩
    rw [appendParts, List.foldlM_cons, h]
    exact hbuilt

/-- The loop returns unless the way climbs out. -/
theorem appendParts_ok_iff (abs : Filename) (ps : List Filename) :
    (∃ f, appendParts abs ps = .ok f) ↔ ¬ Climbs abs ps := by
  induction ps generalizing abs with
  | nil =>
      refine iff_of_true ⟨abs, rfl⟩ ?_
      rintro ⟨pre, post, built, hps, -⟩
      simp at hps
  | cons part ps ih =>
      rw [appendParts, List.foldlM_cons]
      cases h : appendPart abs part with
      | ok abs' =>
          rw [climbs_cons h]
          exact ih abs'
      | error e =>
          have hclimb : part = [dot, dot] ∧ slash ∉ abs := by
            by_contra hno
            obtain ⟨f, hf⟩ := (appendPart_ok_iff abs part).mpr hno
            rw [hf] at h
            cases h
          refine iff_of_false (fun ⟨f, hf⟩ => nomatch hf) (fun hno => hno ?_)
          exact ⟨[], ps, abs, by rw [hclimb.1]; rfl, rfl, hclimb.2⟩

/-- **`make_absolute_to_dir` returns** unless the way climbs out. -/
theorem makeAbsoluteToDir_ok_iff (currentDir f absdir : Filename) :
    (∃ g, makeAbsoluteToDir currentDir f absdir = .ok g) ↔
      ¬ Climbs (start currentDir f absdir) f.parts := by
  rw [makeAbsoluteToDir_eq]
  exact appendParts_ok_iff _ _

end Filename

end NovaProva
