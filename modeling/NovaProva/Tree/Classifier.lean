import Mathlib.Data.List.Forall2
import NovaProva.Lib.Regex
import NovaProva.Core.Event

/-!
# Tree — Classifier

`np/classifier.cxx`, and `classify_function` with the classifiers `np/testmanager.cxx` has: what a
function is for is told from its name, and so is what it tests, mocks or has the values of.

The eleven expressions are matched without regard to case, which is why `testing` is a test of its
own, with the name `ing`.

* `setupClassifiers`, `classifyFunction`: the code.
* `conventions`: which names there are for what.
* `classifyFunction_eq_iff`: the code goes by the conventions, and these exclude each other.
-/

namespace NovaProva

open Regex

/-! ### The code -/

/-- `classifier_t`, with its two results. -/
structure Classifier where
  caseSensitive : Bool
  compiledRe : List Item
  failed : FuncType
  matched : FuncType

/-- `classify`: the result, and what is in the buffer of `maxmatch` bytes. -/
def Classifier.classify (c : Classifier) (func matchReturn : List UInt8) (maxmatch : Nat) :
    FuncType × List UInt8 :=
  match exec (!c.caseSensitive) c.compiledRe func with
  | none                 => (c.failed, matchReturn)
  | some none            => (c.matched, matchReturn)
  | some (some (so, eo)) =>
      if eo - so ≥ maxmatch then (c.failed, matchReturn)
      else (c.matched, (func.drop so).take (eo - so))

/-- `add_classifier`. -/
def addClassifier (re : String) (caseSensitive : Bool) (type : FuncType)
    (classifiers : List Classifier) : List Classifier :=
  match parse re with
  | none    => classifiers
  | some is => classifiers ++
      [{ caseSensitive := caseSensitive, compiledRe := is, failed := .unknown, matched := type }]

/-- `setup_classifiers`. -/
def setupClassifiers : List Classifier :=
  [] |> addClassifier "^test_([a-z0-9].*)" false .test
    |> addClassifier "^[tT]est([A-Z].*)" false .test
    |> addClassifier "^[sS]etup$" false .before
    |> addClassifier "^set_up$" false .before
    |> addClassifier "^[iI]nit$" false .before
    |> addClassifier "^[tT]ear[dD]own$" false .after
    |> addClassifier "^tear_down$" false .after
    |> addClassifier "^[cC]leanup$" false .after
    |> addClassifier "^mock_(.*)" false .mock
    |> addClassifier "^[mM]ock([A-Z].*)" false .mock
    |> addClassifier "^__np_parameter_(.*)" false .param

/-- The loop of `classify_function`. -/
def classifyLoop (func : List UInt8) (maxmatch : Nat) :
    List Classifier → List UInt8 → FuncType × List UInt8
  | [],      matchReturn => (.unknown, matchReturn)
  | c :: cs, matchReturn =>
      let r := c.classify func matchReturn maxmatch
      if r.1 ≠ .unknown then r else classifyLoop func maxmatch cs r.2

/-- `classify_function`. -/
def classifyFunction (func : List UInt8) (maxmatch : Nat) : FuncType × List UInt8 :=
  classifyLoop func maxmatch setupClassifiers []

/-! ### The conventions -/

/-- What may be behind the word a name begins with. -/
inductive Rest where
  | nothing
  | anything
  | letter
  | alphanumeric
  deriving DecidableEq

/-- A letter, large or small. -/
def isLetter (b : UInt8) : Bool := 97 ≤ toLower b && toLower b ≤ 122

/-- A digit. -/
def isDigit (b : UInt8) : Bool := 48 ≤ b && b ≤ 57

/-- What may come behind a word. -/
def Rest.Allows : Rest → List UInt8 → Prop
  | nothing,      sub => sub = []
  | anything,     _   => True
  | letter,       sub => sub.head?.any isLetter = true
  | alphanumeric, sub => sub.head?.any (fun b => isLetter b || isDigit b) = true

instance : (rest : Rest) → (sub : List UInt8) → Decidable (rest.Allows sub)
  | .nothing,      sub => inferInstanceAs (Decidable (sub = []))
  | .anything,     _   => inferInstanceAs (Decidable True)
  | .letter,       sub => inferInstanceAs (Decidable (sub.head?.any isLetter = true))
  | .alphanumeric, sub =>
      inferInstanceAs (Decidable (sub.head?.any (fun b => isLetter b || isDigit b) = true))

/-- A convention: a word, in small letters, and what comes behind it. -/
structure Convention where
  word : List UInt8
  rest : Rest
  type : FuncType
  deriving DecidableEq

/-- The convention with this word. -/
def convention (word : String) (rest : Rest) (type : FuncType) : Convention :=
  ⟨CString.ascii word, rest, type⟩

/-- **The conventions** for the names of functions. -/
def conventions : List Convention :=
  [convention "test_" .alphanumeric .test, convention "test" .letter .test,
    convention "setup" .nothing .before, convention "set_up" .nothing .before,
    convention "init" .nothing .before,
    convention "teardown" .nothing .after, convention "tear_down" .nothing .after,
    convention "cleanup" .nothing .after,
    convention "mock_" .anything .mock, convention "mock" .letter .mock,
    convention "__np_parameter_" .anything .param]

/-- The name begins with the word, in large or small letters, and `sub` is what comes behind it. -/
structure Convention.Names (v : Convention) (name sub : List UInt8) : Prop where
  word : (name.take v.word.length).map toLower = v.word
  behind : name.drop v.word.length = sub
  allows : v.rest.Allows sub

/-! ### Classifiers and conventions -/

/-- The set has one letter in it, large or small. -/
def spellsLetter (c : UInt8) : CharSet → Bool
  | .any       => false
  | .ranges rs => rs.all (fun r => r.1 == r.2 && toLower r.1 == c) && rs.contains (c, c)

/-- The sets are those of the letters of the word. -/
def spells : List CharSet → List UInt8 → Bool
  | [],          []      => true
  | set :: sets, c :: cs => spellsLetter c set && spells sets cs
  | _,           _       => false

/-- The sets for the first character behind the word. -/
def Rest.heads : Rest → List CharSet
  | nothing | anything => []
  | letter             => [.ranges [(65, 90)]]
  | alphanumeric       => [.ranges [(97, 122), (48, 57)]]

/-- What there is in an expression behind the word. -/
def Rest.items : Rest → List Item
  | nothing => [.lineEnd]
  | rest    => .groupStart :: (rest.heads.map .one ++ [.many .any, .groupEnd])

/-- The set of a piece for one byte. -/
def Item.set? : Item → Option CharSet
  | .one set => some set
  | _        => none

/-- The characters of an expression that are for the word. -/
def Convention.sets (v : Convention) (c : Classifier) : List CharSet :=
  (c.compiledRe.take v.word.length).filterMap Item.set?

/-- The classifier is one for the convention. -/
def Convention.Describes (v : Convention) (c : Classifier) : Prop :=
  c.caseSensitive = false ∧ c.failed = .unknown ∧ c.matched = v.type ∧
    spells (v.sets c) v.word = true ∧ c.compiledRe = (v.sets c).map .one ++ v.rest.items

instance (v : Convention) (c : Classifier) : Decidable (v.Describes c) :=
  inferInstanceAs (Decidable (_ ∧ _))

theorem describes_conventions :
    List.Forall₂ Convention.Describes conventions setupClassifiers := by
  rw [List.forall₂_iff_zip]
  refine ⟨rfl, fun {v c} hmem => ?_⟩
  have hall : ∀ p ∈ conventions.zip setupClassifiers, p.1.Describes p.2 := by decide +kernel
  exact hall (v, c) hmem

/-! ### Matching -/

theorem accepts_letter (b : UInt8) :
    (CharSet.ranges [(65, 90)]).accepts true b = isLetter b := by
  simp only [CharSet.accepts, CharSet.contains, isLetter, toLower, toUpper]
  grind

theorem accepts_alphanumeric (b : UInt8) :
    (CharSet.ranges [(97, 122), (48, 57)]).accepts true b = (isLetter b || isDigit b) := by
  simp only [CharSet.accepts, CharSet.contains, isLetter, isDigit, toLower, toUpper]
  grind

theorem toLower_toLower (b : UInt8) : toLower (toLower b) = toLower b := by
  simp only [toLower]
  grind

theorem toLower_toUpper (b : UInt8) : toLower (toUpper b) = toLower b := by
  simp only [toLower, toUpper]
  grind

/-- A set for one letter takes it, large or small, and nothing else. -/
theorem accepts_iff {set : CharSet} {c : UInt8} (h : spellsLetter c set = true) (b : UInt8) :
    set.accepts true b = true ↔ toLower b = c := by
  cases set with
  | any => cases h
  | ranges rs =>
      rw [spellsLetter, Bool.and_eq_true, List.all_eq_true, List.contains_iff_mem] at h
      obtain ⟨hall, hmem⟩ := h
      have hin : ∀ x, (CharSet.ranges rs).contains x = true → toLower x = c := by
        intro x hx
        obtain ⟨r, hr, hrange⟩ := List.any_eq_true.mp hx
        have hone := hall r hr
        simp only [Bool.and_eq_true, beq_iff_eq, decide_eq_true_eq] at hone hrange
        rw [← hone.2]
        exact congrArg toLower (UInt8.le_antisymm (hone.1 ▸ hrange.2) hrange.1)
      rw [CharSet.accepts, if_pos rfl, Bool.or_eq_true]
      constructor
      · rintro (hx | hx)
        · rw [← toLower_toLower]
          exact hin _ hx
        · rw [← toLower_toUpper]
          exact hin _ hx
      · rintro rfl
        refine .inl (List.any_eq_true.mpr ⟨_, hmem, ?_⟩)
        simp

section
variable {sets : List CharSet} {word name sub : List UInt8} {v w : Convention} {c : Classifier}

theorem length_of_spells (h : spells sets word = true) : sets.length = word.length := by
  induction sets generalizing word with
  | nil =>
      cases word with
      | nil => rfl
      | cons c cs => cases h
  | cons set sets ih =>
      cases word with
      | nil => cases h
      | cons c cs =>
          rw [spells, Bool.and_eq_true] at h
          exact congrArg Nat.succ (ih h.2)

theorem fits_of_spells (h : spells sets word = true) (text : List UInt8) :
    fits true sets text = true ↔ (text.take word.length).map toLower = word := by
  induction sets generalizing word text with
  | nil =>
      obtain rfl : word = [] := List.length_eq_zero_iff.mp (length_of_spells h).symm
      exact iff_of_true rfl rfl
  | cons set sets ih =>
      cases word with
      | nil => cases h
      | cons c cs =>
          rw [spells, Bool.and_eq_true] at h
          cases text with
          | nil => simp [fits]
          | cons b bs =>
              rw [fits, Bool.and_eq_true, ih h.2, accepts_iff h.1, List.length_cons,
                List.take_succ_cons, List.map_cons, List.cons.injEq]

theorem fits_heads (rest : Rest) (hne : rest ≠ .nothing) (text : List UInt8) :
    fits true rest.heads text = true ↔ rest.Allows text := by
  cases rest with
  | nothing => exact absurd rfl hne
  | anything => exact iff_of_true rfl trivial
  | letter => cases text <;> simp [Rest.heads, fits, Rest.Allows, accepts_letter]
  | alphanumeric => cases text <;> simp [Rest.heads, fits, Rest.Allows, accepts_alphanumeric]

/-- Where the group is. -/
def Convention.group (v : Convention) (name : List UInt8) : Group :=
  if v.rest = .nothing then none else some (v.word.length, name.length)

/-- The expression of a convention matches the names it is for. -/
theorem exec_eq_iff (h : v.Describes c) (name : List UInt8) :
    exec true c.compiledRe name =
      if fits true (v.sets c) name ∧ v.rest.Allows (name.drop v.word.length) then
        some (v.group name)
      else none := by
  obtain ⟨-, -, -, hspells, hitems⟩ := h
  have hlength := length_of_spells hspells
  rw [hitems]
  by_cases hrest : v.rest = .nothing
  · rw [hrest, Rest.items, exec_line, Convention.group, if_pos hrest]
    refine if_congr (and_congr_right fun hfits => ?_) rfl rfl
    have hle := length_le_of_fits hfits
    rw [Rest.Allows, List.drop_eq_nil_iff]
    omega
  · have hcons : v.rest.items =
        .groupStart :: (v.rest.heads.map .one ++ [.many .any, .groupEnd]) := by
      cases hr : v.rest <;> first | rfl | exact absurd hr hrest
    rw [hcons, exec_group, Convention.group, if_neg hrest, hlength]
    refine if_congr ?_ rfl rfl
    rw [fits_append, Bool.and_eq_true, fits_heads v.rest hrest, hlength]

theorem names_iff (h : v.Describes c) : v.Names name sub ↔
    (fits true (v.sets c) name ∧ v.rest.Allows (name.drop v.word.length)) ∧
      name.drop v.word.length = sub := by
  rw [fits_of_spells h.2.2.2.1]
  constructor
  · rintro ⟨hword, rfl, hallows⟩
    exact ⟨⟨hword, hallows⟩, rfl⟩
  · rintro ⟨⟨hword, hallows⟩, rfl⟩
    exact ⟨hword, rfl, hallows⟩

theorem classify_of_names (h : v.Describes c) (hn : v.Names name sub) {maxmatch : Nat}
    (hlt : sub.length < maxmatch) : c.classify name [] maxmatch = (v.type, sub) := by
  obtain ⟨hfits, hbehind⟩ := (names_iff h).mp hn
  obtain ⟨hcase, -, hmatched, -⟩ := id h
  rw [Classifier.classify, hcase, Bool.not_false, exec_eq_iff h, if_pos hfits, Convention.group]
  by_cases hrest : v.rest = .nothing
  · have hnil : sub = [] := by
      have hallows := hn.allows
      rwa [hrest, Rest.Allows] at hallows
    rw [if_pos hrest, hmatched, hnil]
  · have hlen : name.length - v.word.length = sub.length := by rw [← hbehind, List.length_drop]
    rw [if_neg hrest]
    dsimp only
    rw [hlen, if_neg (Nat.not_le.mpr hlt), hbehind, List.take_length, hmatched]

/-- Nothing is written where there is no match, or one that is too long. -/
theorem classify_of_not_names (h : v.Describes c) {maxmatch : Nat} (hpos : 0 < maxmatch)
    (hn : ∀ sub, v.Names name sub → maxmatch ≤ sub.length) :
    c.classify name [] maxmatch = (.unknown, []) := by
  obtain ⟨hcase, hfailed, -⟩ := id h
  rw [Classifier.classify, hcase, Bool.not_false, exec_eq_iff h]
  by_cases hfits : fits true (v.sets c) name ∧ v.rest.Allows (name.drop v.word.length)
  · have hlong := hn _ ((names_iff h).mpr ⟨hfits, rfl⟩)
    have hrest : v.rest ≠ .nothing := by
      intro hrest
      have hnil := hfits.2
      rw [hrest, Rest.Allows] at hnil
      rw [hnil] at hlong
      exact absurd hlong (Nat.not_le.mpr hpos)
    rw [if_pos hfits, Convention.group, if_neg hrest]
    dsimp only
    rw [List.length_drop] at hlong
    rw [if_pos hlong, hfailed]
  · rw [if_neg hfits, hfailed]

/-- **The loop** stops at the first classifier with a match that fits into the buffer. -/
theorem classifyLoop_cases (name : List UInt8) {vs : List Convention} {cs : List Classifier}
    (h : List.Forall₂ Convention.Describes vs cs) (hne : ∀ v ∈ vs, v.type ≠ .unknown)
    {maxmatch : Nat} (hpos : 0 < maxmatch) :
    (∃ v ∈ vs, ∃ sub, v.Names name sub ∧ sub.length < maxmatch ∧
        classifyLoop name maxmatch cs [] = (v.type, sub)) ∨
      (∀ v ∈ vs, ∀ sub, v.Names name sub → maxmatch ≤ sub.length) ∧
        classifyLoop name maxmatch cs [] = (.unknown, []) := by
  induction h with
  | nil => exact .inr ⟨fun v hv => absurd hv List.not_mem_nil, rfl⟩
  | @cons v c vs cs hd _ ih =>
      rw [List.forall_mem_cons] at hne
      by_cases hn : ∃ sub, v.Names name sub ∧ sub.length < maxmatch
      · obtain ⟨sub, hn, hlt⟩ := hn
        refine .inl ⟨v, List.mem_cons_self, sub, hn, hlt, ?_⟩
        rw [classifyLoop, classify_of_names hd hn hlt]
        exact if_pos hne.1
      · have hlong : ∀ sub, v.Names name sub → maxmatch ≤ sub.length := fun sub hs =>
          Nat.not_lt.mp fun hlt => hn ⟨sub, hs, hlt⟩
        have hnext :
            classifyLoop name maxmatch (c :: cs) [] = classifyLoop name maxmatch cs [] := by
          rw [classifyLoop, classify_of_not_names hd hpos hlong]
          rfl
        rw [hnext]
        rcases ih hne.2 with ⟨u, hu, hfound⟩ | ⟨hnone, hloop⟩
        · exact .inl ⟨u, List.mem_cons_of_mem v hu, hfound⟩
        · exact .inr ⟨List.forall_mem_cons.mpr ⟨hlong, hnone⟩, hloop⟩

/-! ### One convention for a name -/

theorem isPrefix_of_names {sub' : List UInt8} (hv : v.Names name sub) (hw : w.Names name sub')
    (hle : v.word.length ≤ w.word.length) : v.word <+: w.word := by
  rw [List.prefix_iff_eq_take]
  calc v.word = (name.take v.word.length).map toLower := hv.word.symm
    _ = ((name.take w.word.length).take v.word.length).map toLower := by
        rw [List.take_take, Nat.min_eq_left hle]
    _ = w.word.take v.word.length := by rw [List.map_take, hw.word]

/-- A word that goes on where another ends goes on with a `_`. -/
theorem words_apart : ∀ v ∈ conventions, ∀ w ∈ conventions, v.word <+: w.word →
    v = w ∨ v.rest = .letter ∧ w.word[v.word.length]? = some 95 := by
  decide +kernel

theorem types_known : ∀ v ∈ conventions, v.type ≠ .unknown := by
  simp [conventions, convention]

/-- The conventions exclude each other. -/
theorem names_unique {sub' : List UInt8} (hv : v ∈ conventions) (hw : w ∈ conventions)
    (hn : v.Names name sub) (hn' : w.Names name sub') : v = w := by
  have hone : ∀ {v w : Convention} {sub sub' : List UInt8}, v ∈ conventions → w ∈ conventions →
      v.Names name sub → w.Names name sub' → v.word.length ≤ w.word.length → v = w := by
    intro v w sub sub' hv hw hn hn' hle
    refine (words_apart v hv w hw (isPrefix_of_names hn hn' hle)).resolve_right ?_
    rintro ⟨hrest, hnext⟩
    have hallows := hn.allows
    rw [hrest, Rest.Allows, ← hn.behind, List.head?_drop] at hallows
    rw [← hn'.word, List.getElem?_map, List.getElem?_take] at hnext
    split at hnext
    · obtain ⟨b, hb, hlower⟩ := Option.map_eq_some_iff.mp hnext
      rw [hb, Option.any_some, isLetter, hlower] at hallows
      exact absurd hallows (by decide)
    · cases hnext
  rcases Nat.le_total v.word.length w.word.length with hle | hle
  · exact hone hv hw hn hn' hle
  · exact (hone hw hv hn' hn hle).symm

end

/-- **What a function is for.**  `classify_function` tells a type and a rest of the name exactly if
the name is one by a convention for the type, the rest is what is behind its word, and it fits into
the buffer; so the order of the classifiers makes no difference. -/
theorem classifyFunction_eq_iff {name sub : List UInt8} {type : FuncType}
    (htype : type ≠ .unknown) {maxmatch : Nat} (hpos : 0 < maxmatch) :
    classifyFunction name maxmatch = (type, sub) ↔
      (∃ v ∈ conventions, v.type = type ∧ v.Names name sub) ∧ sub.length < maxmatch := by
  have hcases := classifyLoop_cases name describes_conventions types_known hpos
  rw [classifyFunction]
  constructor
  · intro h
    rcases hcases with ⟨v, hv, sub', hn, hlt, hloop⟩ | ⟨-, hloop⟩
    · rw [hloop, Prod.mk.injEq] at h
      obtain ⟨rfl, rfl⟩ := h
      exact ⟨⟨v, hv, rfl, hn⟩, hlt⟩
    · rw [hloop, Prod.mk.injEq] at h
      exact absurd h.1.symm htype
  · rintro ⟨⟨v, hv, rfl, hn⟩, hlt⟩
    rcases hcases with ⟨w, hw, sub', hn', -, hloop⟩ | ⟨hnone, -⟩
    · obtain rfl := names_unique hv hw hn hn'
      rw [hloop, ← hn'.behind, hn.behind]
    · exact absurd (hnone v hv sub hn) (Nat.not_le.mpr hlt)

/-- A capital letter behind the word is not asked for. -/
theorem classifyFunction_testing :
    classifyFunction (CString.ascii "testing") 512 = (.test, CString.ascii "ing") := by
  refine (classifyFunction_eq_iff (by decide) (by decide)).mpr ⟨?_, by decide⟩
  refine ⟨convention "test" .letter .test, by decide, rfl, ?_, ?_, ?_⟩
  · decide
  · decide
  · decide

/-- What is told of a name with a type, however long the rest. -/
theorem classifyFunction_type_iff {name : List UInt8} {type : FuncType} (htype : type ≠ .unknown)
    {maxmatch : Nat} (hpos : 0 < maxmatch) :
    (classifyFunction name maxmatch).1 = type ↔
      ∃ v ∈ conventions, v.type = type ∧ ∃ sub, v.Names name sub ∧ sub.length < maxmatch := by
  rw [classifyFunction]
  rcases classifyLoop_cases name describes_conventions types_known hpos with
    ⟨v, hv, sub, hn, hlt, hloop⟩ | ⟨hnone, hloop⟩
  · rw [hloop]
    refine ⟨fun h => ⟨v, hv, h, sub, hn, hlt⟩, ?_⟩
    rintro ⟨w, hw, rfl, sub', hn', -⟩
    rw [names_unique hv hw hn hn']
  · rw [hloop]
    refine iff_of_false htype.symm ?_
    rintro ⟨v, hv, -, sub, hn, hlt⟩
    exact absurd (hnone v hv sub hn) (Nat.not_le.mpr hlt)

/-- The rest is one that the convention for the type allows. -/
theorem classifyFunction_allows {name : List UInt8} {maxmatch : Nat} (hpos : 0 < maxmatch)
    (hne : (classifyFunction name maxmatch).1 ≠ .unknown) :
    ∃ v ∈ conventions, v.type = (classifyFunction name maxmatch).1 ∧
      v.rest.Allows (classifyFunction name maxmatch).2 := by
  rw [classifyFunction] at hne ⊢
  rcases classifyLoop_cases name describes_conventions types_known hpos with
    ⟨v, hv, sub, hn, -, hloop⟩ | ⟨-, hloop⟩
  · rw [hloop]
    exact ⟨v, hv, rfl, hn.allows⟩
  · rw [hloop] at hne
    exact absurd rfl hne

/-- The names of fixtures have no rest. -/
theorem classifyFunction_fixture {name : List UInt8} {maxmatch : Nat} (hpos : 0 < maxmatch)
    (h : (classifyFunction name maxmatch).1 = .before ∨
      (classifyFunction name maxmatch).1 = .after) : (classifyFunction name maxmatch).2 = [] := by
  have hne : (classifyFunction name maxmatch).1 ≠ .unknown := by
    rcases h with h | h <;> rw [h] <;> decide
  obtain ⟨v, hv, htype, hallows⟩ := classifyFunction_allows hpos hne
  have hrest : ∀ v ∈ conventions, v.type = .before ∨ v.type = .after → v.rest = .nothing := by
    simp [conventions, convention]
  rwa [hrest v hv (by rwa [htype]), Rest.Allows] at hallows

/-- The names of tests have a rest. -/
theorem classifyFunction_test {name : List UInt8} {maxmatch : Nat} (hpos : 0 < maxmatch)
    (h : (classifyFunction name maxmatch).1 = .test) : (classifyFunction name maxmatch).2 ≠ [] := by
  obtain ⟨v, hv, htype, hallows⟩ := classifyFunction_allows hpos (by rw [h]; decide)
  have hrest : ∀ v ∈ conventions, v.type = .test → ¬ v.rest.Allows [] := by
    simp [conventions, convention, Rest.Allows]
  intro hnil
  rw [hnil] at hallows
  exact hrest v hv (htype.trans h) hallows

end NovaProva
