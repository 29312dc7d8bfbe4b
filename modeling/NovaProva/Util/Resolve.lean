import NovaProva.Util.Filename
import NovaProva.Lib.Joined
import NovaProva.Lib.Runs

/-!
# Util — Lexical resolution

What `make_absolute_to_dir` is for: the components of the base followed by those of the path, where
a `.` is dropped and a `..` takes the component before it off (`Filename.resolve`).

The code works on the string.  As a list of what stands between its slashes that string is a stack
as well, and the two stacks are compared part by part.  They part where a `..` finds one component:
behind a root the code leaves it, and in a relative path it throws.  They also part where a name
follows a relative name of one byte, since the code takes a string of that length for the root, and
they are apart from the start for a base with a slash too many.  From then on they agree again only
if such a base begins with two slashes and the path climbs out of it.

* `makeAbsoluteToDir_resolves_iff`: when the two agree.
-/

namespace NovaProva.Filename

/-! ### Resolution -/

/-- `..` -/
def dotdot : Filename := [dot, dot]

/-- A component is followed: down, up, or nowhere. -/
def resolvePart (comps : List Filename) (part : Filename) : List Filename :=
  if part = [dot] then comps
  else if part = dotdot then comps.dropLast
  else comps ++ [part]

/-- All components, one after the other. -/
def resolveParts (comps parts : List Filename) : List Filename := parts.foldl resolvePart comps

/-- Components joined by single slashes. -/
def joinPath (absolute : Bool) (comps : List Filename) : Filename :=
  (if absolute then [slash] else []) ++ [slash].intercalate comps

/-- The lexical resolution of `base/f`, or of `f` where it is absolute.  A `..` with nothing before
it is dropped. -/
def resolve (base f : Filename) : Filename :=
  if f.isAbsolute then joinPath true (resolveParts [] f.parts)
  else joinPath base.isAbsolute (resolveParts base.parts f.parts)

/-- The part is one that the code gets wrong with the components `comps` before it. -/
def Misread (absolute : Bool) (comps : List Filename) (part : Filename) : Prop :=
  part = dotdot ∧ comps.length = 1 ∨
    (part ≠ [dot] ∧ part ≠ dotdot) ∧ absolute = false ∧ ∃ c, comps = [[c]]

/-- None of the parts is, from `comps` on. -/
def WellRead (absolute : Bool) (comps parts : List Filename) : Prop :=
  Each (fun pre part => ¬ Misread absolute (resolveParts comps pre) part) parts

/-- What is left of the parts where they have first climbed `n` components up. -/
def climbOut : Nat → List Filename → Option (List Filename)
  | 0,     parts => some parts
  | _ + 1, []    => none
  | n + 1, part :: parts =>
      if part = [dot] then climbOut (n + 1) parts
      else if part = dotdot then climbOut n parts
      else climbOut (n + 2) parts

/-- The base is spelled with single slashes, or the path climbs out of one that begins with two. -/
def Resolvable (base f : Filename) : Prop :=
  if f.isAbsolute then WellRead true [] f.parts
  else
    base = joinPath base.isAbsolute base.parts ∧ WellRead base.isAbsolute base.parts f.parts ∨
    (∃ rest, base = slash :: slash :: rest) ∧
      ∃ parts, climbOut (base.count slash - 1) f.parts = some parts ∧ WellRead true [] parts

/-! ### Parts -/

/-- No component is empty. -/
theorem ne_nil_of_mem_parts {f p : Filename} (h : p ∈ f.parts) : p ≠ [] :=
  of_decide_eq_true (List.mem_filter.mp h).2

/-- A leading slash makes no component. -/
theorem parts_slash (f : Filename) : Filename.parts (slash :: f) = f.parts := by
  rw [Filename.parts, List.splitOn_cons_eq_if_modifyHead, if_pos (BEq.refl slash),
    List.filter_cons_of_neg (by simp)]
  rfl

/-- No component has a slash in it. -/
theorem pieces_parts (f : Filename) : Pieces slash f.parts :=
  (pieces_splitOn slash f).of_subset List.filter_sublist.subset

@[simp] theorem resolvePart_dot (comps : List Filename) : resolvePart comps [dot] = comps :=
  if_pos rfl

@[simp] theorem resolvePart_dotdot (comps : List Filename) :
    resolvePart comps dotdot = comps.dropLast := by
  rw [resolvePart, if_neg (by decide), if_pos rfl]

/-- A name goes down. -/
theorem resolvePart_name {part : Filename} (hdot : part ≠ [dot]) (hdd : part ≠ dotdot)
    (comps : List Filename) : resolvePart comps part = comps ++ [part] := by
  rw [resolvePart, if_neg hdot, if_neg hdd]

/-- The components are followed one after the other. -/
theorem resolveParts_cons (comps : List Filename) (part : Filename) (parts : List Filename) :
    resolveParts comps (part :: parts) = resolveParts (resolvePart comps part) parts := rfl

/-- The components of a place have no slash in them. -/
theorem pieces_resolvePart {comps : List Filename} {part : Filename} (h : Pieces slash comps)
    (hp : slash ∉ part) : Pieces slash (resolvePart comps part) := by
  unfold resolvePart
  split
  · exact h
  · split
    · exact h.dropLast
    · exact h.concat hp

/-- Wherever a name leads, the components have no slash in them. -/
theorem pieces_resolveParts {comps parts : List Filename} (h : Pieces slash comps)
    (hp : Pieces slash parts) : Pieces slash (resolveParts comps parts) := by
  induction parts generalizing comps with
  | nil => exact h
  | cons part parts ih =>
      exact ih (pieces_resolvePart h (hp part List.mem_cons_self))
        (hp.of_subset (List.subset_cons_self part parts))

theorem notMem_concat {bs : List Filename} {a part : Filename} (h : a ∉ bs) (hp : part ≠ a) :
    a ∉ bs ++ [part] := by
  rw [List.mem_append, List.mem_singleton, not_or]
  exact ⟨h, Ne.symm hp⟩

/-- Nor is one of them empty. -/
theorem named_resolvePart {comps : List Filename} {part : Filename} (h : [] ∉ comps)
    (hp : part ≠ []) : [] ∉ resolvePart comps part := by
  unfold resolvePart
  split
  · exact h
  · split
    · exact fun hmem => h (List.dropLast_subset comps hmem)
    · exact notMem_concat h hp

theorem wellRead_nil (absolute : Bool) (comps : List Filename) : WellRead absolute comps [] :=
  each_nil _

/-- A name is read well at its first component and behind it. -/
theorem wellRead_cons {absolute : Bool} {comps : List Filename} {part : Filename}
    {parts : List Filename} : WellRead absolute comps (part :: parts) ↔
      ¬ Misread absolute comps part ∧ WellRead absolute (resolvePart comps part) parts :=
  each_cons

/-! ### The code's stack -/

/-- The last slash is the one with none behind it. -/
theorem findLastOf_append {v : Filename} (u : Filename) (h : slash ∉ v) :
    findLastOf (u ++ slash :: v) = some u.length := by
  induction u with
  | nil =>
      rw [List.nil_append, findLastOf, (findLastOf_eq_none_iff v).mpr h]
      rfl
  | cons c u ih =>
      rw [List.cons_append, findLastOf, ih]
      rfl

/-- What a part does to what stands between the slashes behind the root. -/
def absolutePart (bs : List Filename) (part : Filename) : List Filename :=
  if part = [dot] then bs
  else if part = dotdot then if bs.length = 1 then bs else bs.dropLast
  else if bs = [[]] then [part]
  else bs ++ [part]

/-- What a part does to what stands between the slashes of a relative path. -/
def relativePart (bs : List Filename) (part : Filename) : Except FilenameError (List Filename) :=
  if part = [dot] then .ok bs
  else if part = dotdot then if bs.length = 1 then .error .lengthError else .ok bs.dropLast
  else if ([slash].intercalate bs).length > 1 then .ok (bs ++ [part])
  else .ok [[slash].intercalate bs ++ part]

section
variable {bs : List Filename} {part u v : Filename}

/-- A `.` changes nothing. -/
theorem appendPart_dot (abs : Filename) : appendPart abs [dot] = .ok abs := if_pos rfl

/-- A name is added, with a slash if there is more than one character before it. -/
theorem appendPart_name (hdot : part ≠ [dot]) (hdd : part ≠ dotdot) (abs : Filename) :
    appendPart abs part = .ok ((if abs.length > 1 then abs ++ [slash] else abs) ++ part) := by
  rw [appendPart, if_neg hdot, if_neg (show ¬ part = [dot, dot] from hdd)]

/-- A `..` cuts off the last slash and what is behind it. -/
theorem appendPart_dotdot (hv : slash ∉ v) (hu : u ≠ []) :
    appendPart (u ++ slash :: v) dotdot = .ok u := by
  obtain ⟨c, u, rfl⟩ := List.exists_cons_of_ne_nil hu
  rw [appendPart, if_neg (by decide), if_pos (show dotdot = [dot, dot] from rfl),
    findLastOf_append _ hv]
  simp

/-- A `..` leaves a path whose only slash is its first character. -/
theorem appendPart_dotdot_root (hv : slash ∉ v) :
    appendPart (slash :: v) dotdot = .ok (slash :: v) := by
  rw [appendPart, if_neg (by decide), if_pos (show dotdot = [dot, dot] from rfl),
    show slash :: v = [] ++ slash :: v from rfl, findLastOf_append [] hv]
  rfl

/-- A `..` throws where there is no slash. -/
theorem appendPart_dotdot_none (hv : slash ∉ v) : appendPart v dotdot = .error .lengthError := by
  rw [appendPart, if_neg (by decide), if_pos (show dotdot = [dot, dot] from rfl),
    (findLastOf_eq_none_iff v).mpr hv]

/-- More than one piece is what is before the last slash and what is behind it. -/
theorem exists_concat_of_length (h : bs ≠ []) (hlen : bs.length ≠ 1) :
    ∃ init last, init ≠ [] ∧ bs = init ++ [last] := by
  refine ⟨bs.dropLast, bs.getLast h, fun hnil => hlen ?_, (List.dropLast_concat_getLast h).symm⟩
  have hlen' := congrArg List.length hnil
  rw [List.length_dropLast] at hlen'
  have hpos := List.length_pos_iff.mpr h
  have hzero : bs.length - 1 = 0 := hlen'
  omega

/-- **A component behind an absolute path**, component by component. -/
theorem appendPart_absolute (hne : bs ≠ []) (hbs : Pieces slash bs) (part : Filename) :
    appendPart (slash :: [slash].intercalate bs) part =
      .ok (slash :: [slash].intercalate (absolutePart bs part)) := by
  by_cases hdot : part = [dot]
  · rw [absolutePart, if_pos hdot, hdot, appendPart_dot]
  rw [absolutePart, if_neg hdot]
  by_cases hdd : part = dotdot
  · rw [if_pos hdd, hdd]
    by_cases hlen : bs.length = 1
    · obtain ⟨b, rfl⟩ := List.length_eq_one_iff.mp hlen
      rw [if_pos hlen, List.intercalate_singleton]
      exact appendPart_dotdot_root (hbs b List.mem_cons_self)
    · obtain ⟨init, last, hinit, rfl⟩ := exists_concat_of_length hne hlen
      rw [if_neg hlen, List.dropLast_concat, intercalate_concat hinit, ← List.cons_append]
      exact appendPart_dotdot (hbs last (by simp)) (List.cons_ne_nil _ _)
  · rw [if_neg hdd, appendPart_name hdot hdd]
    by_cases hroot : bs = [[]]
    · simp [hroot]
    · have hpos := List.length_pos_iff.mpr (mt (intercalate_eq_nil_iff (x := slash) hne).mp hroot)
      have hlen : (slash :: [slash].intercalate bs).length > 1 := by
        rw [List.length_cons]
        omega
      rw [if_neg hroot, if_pos hlen, intercalate_concat hne, List.append_assoc]
      rfl

/-- **A component behind a relative path.** -/
theorem appendPart_relative (hne : bs ≠ []) (hbs : Pieces slash bs) (hroot : bs.head? ≠ some [])
    (part : Filename) : appendPart ([slash].intercalate bs) part =
      (relativePart bs part).map [slash].intercalate := by
  by_cases hdot : part = [dot]
  · rw [relativePart, if_pos hdot, hdot, appendPart_dot]
    rfl
  rw [relativePart, if_neg hdot]
  by_cases hdd : part = dotdot
  · rw [if_pos hdd, hdd]
    by_cases hlen : bs.length = 1
    · obtain ⟨b, rfl⟩ := List.length_eq_one_iff.mp hlen
      rw [if_pos hlen, List.intercalate_singleton]
      exact appendPart_dotdot_none (hbs b List.mem_cons_self)
    · obtain ⟨init, last, hinit, rfl⟩ := exists_concat_of_length hne hlen
      rw [if_neg hlen, List.dropLast_concat, intercalate_concat hinit]
      refine appendPart_dotdot (hbs last (by simp)) fun hnil => hroot ?_
      rw [(intercalate_eq_nil_iff hinit).mp hnil]
      rfl
  · rw [if_neg hdd, appendPart_name hdot hdd]
    by_cases hlen : ([slash].intercalate bs).length > 1
    · rw [if_pos hlen, if_pos hlen, List.append_assoc]
      exact congrArg Except.ok (intercalate_concat hne part).symm
    · rw [if_neg hlen, if_neg hlen]
      exact congrArg Except.ok List.intercalate_singleton.symm

theorem absolutePart_ne_nil (hne : bs ≠ []) : absolutePart bs part ≠ [] := by
  unfold absolutePart
  split
  · exact hne
  · split
    · split
      · exact hne
      case isFalse hlen =>
        obtain ⟨init, last, hinit, rfl⟩ := exists_concat_of_length hne hlen
        rwa [List.dropLast_concat]
    · split <;> simp

/-- The components of the result have no slash in them. -/
theorem pieces_absolutePart (hbs : Pieces slash bs) (hp : slash ∉ part) :
    Pieces slash (absolutePart bs part) := by
  unfold absolutePart
  split
  · exact hbs
  · split
    · split
      · exact hbs
      · exact hbs.dropLast
    · split
      · exact .singleton hp
      · exact hbs.concat hp

end

/-- **All components behind an absolute path.** -/
theorem appendParts_absolute {bs parts : List Filename} (hne : bs ≠ []) (hbs : Pieces slash bs)
    (hp : Pieces slash parts) : appendParts (slash :: [slash].intercalate bs) parts =
      .ok (slash :: [slash].intercalate (parts.foldl absolutePart bs)) := by
  induction parts generalizing bs with
  | nil => rfl
  | cons part parts ih =>
      have hpart : slash ∉ part := hp part List.mem_cons_self
      rw [appendParts, List.foldlM_cons, appendPart_absolute hne hbs]
      exact ih (absolutePart_ne_nil hne) (pieces_absolutePart hbs hpart)
        (hp.of_subset (List.subset_cons_self part parts))

/-! ### Behind a root -/

/-- What stands behind the root with the components `comps`. -/
def pieces (comps : List Filename) : List Filename := if comps = [] then [[]] else comps

section
variable {bs comps : List Filename} {part : Filename} {parts : List Filename}

/-- The root is the path of no components. -/
theorem intercalate_pieces (comps : List Filename) :
    [slash].intercalate (pieces comps) = [slash].intercalate comps := by
  rw [pieces]
  split
  case isTrue h =>
    rw [h]
    rfl
  · rfl

theorem pieces_ne_nil (comps : List Filename) : pieces comps ≠ [] := by
  rw [pieces]
  split
  · exact List.cons_ne_nil _ _
  · assumption

/-- The pieces of a path have no slash in them. -/
theorem pieces_pieces (h : Pieces slash comps) : Pieces slash (pieces comps) := by
  rw [pieces]
  split
  · exact .singleton List.not_mem_nil
  · exact h

/-- The number of pieces that are names. -/
def named (bs : List Filename) : Nat := bs.countP (· ≠ [])

/-- The code's stack has more names on it than there are components, or an empty piece among
them, above a name that stays. -/
def Behind (bs comps : List Filename) : Prop :=
  (∃ b rest, bs = b :: rest ∧ b ≠ []) ∧
    ([] ∈ bs ∧ comps.length ≤ named bs ∨ comps.length < named bs)

/-- A path that is behind is another one. -/
theorem Behind.ne (h : Behind bs comps) (hc : [] ∉ comps) : bs ≠ pieces comps := by
  obtain ⟨⟨b, rest, rfl, hb⟩, hlen⟩ := h
  intro heq
  rw [pieces] at heq
  split at heq
  · exact hb (List.cons.inj heq).1
  · rcases hlen with ⟨hmem, -⟩ | hlt
    · rw [heq] at hmem
      exact hc hmem
    · rw [heq, named] at hlt
      exact absurd hlt (Nat.not_lt.mpr List.countP_le_length)

/-- How many pieces are names, with one more. -/
theorem named_concat (bs : List Filename) (last : Filename) :
    named (bs ++ [last]) = named bs + if last = [] then 0 else 1 := by
  rw [named, List.countP_append, named]
  by_cases h : last = [] <;> simp [h]

theorem named_pos {b : Filename} {rest : List Filename} (hb : b ≠ []) : 0 < named (b :: rest) := by
  rw [named, List.countP_pos_iff]
  exact ⟨b, List.mem_cons_self, decide_eq_true hb⟩

/-- Taking a piece off the code's stack, and a component. -/
theorem Behind.dropLast (h : Behind bs comps) (hlen : bs.length ≠ 1) :
    Behind bs.dropLast comps.dropLast := by
  obtain ⟨⟨b, rest, rfl, hb⟩, hor⟩ := h
  obtain ⟨init, last, hinit, heq⟩ := exists_concat_of_length (List.cons_ne_nil b rest) hlen
  obtain ⟨c, init, rfl⟩ := List.exists_cons_of_ne_nil hinit
  obtain ⟨rfl, rfl⟩ := List.cons.inj heq
  have hpos : 0 < named (b :: init) := named_pos hb
  rw [heq, named_concat] at hor
  rw [heq, List.dropLast_concat]
  refine ⟨⟨b, init, rfl, hb⟩, ?_⟩
  rw [List.length_dropLast]
  by_cases hlast : last = []
  · rw [if_pos hlast, Nat.add_zero] at hor
    rcases hor with ⟨-, hle⟩ | hlt
    · exact .inr (by omega)
    · exact .inr (by omega)
  · rw [if_neg hlast] at hor
    rcases hor with ⟨hmem, hle⟩ | hlt
    · rcases List.mem_append.mp hmem with hmem | hmem
      · exact .inl ⟨hmem, by omega⟩
      · exact absurd (List.mem_singleton.mp hmem).symm hlast
    · exact .inr (by omega)

/-- Putting a name on both. -/
theorem Behind.concat (h : Behind bs comps) (hp : part ≠ []) :
    Behind (bs ++ [part]) (comps ++ [part]) := by
  obtain ⟨⟨b, rest, rfl, hb⟩, hor⟩ := h
  refine ⟨⟨b, rest ++ [part], rfl, hb⟩, ?_⟩
  rw [named_concat, if_neg hp, List.length_append, List.length_singleton]
  rcases hor with ⟨hmem, hle⟩ | hlt
  · exact .inl ⟨List.mem_append_left _ hmem, Nat.add_le_add_right hle 1⟩
  · exact .inr (Nat.add_lt_add_right hlt 1)

/-- What is behind stays behind, whatever comes next. -/
theorem Behind.next (h : Behind bs comps) (hp : part ≠ []) :
    Behind (absolutePart bs part) (resolvePart comps part) := by
  by_cases hdot : part = [dot]
  · rw [absolutePart, if_pos hdot, hdot, resolvePart_dot]
    exact h
  rw [absolutePart, if_neg hdot]
  by_cases hdd : part = dotdot
  · rw [if_pos hdd, hdd, resolvePart_dotdot]
    by_cases hlen : bs.length = 1
    · rw [if_pos hlen]
      obtain ⟨hhead, hor⟩ := h
      refine ⟨hhead, ?_⟩
      rw [List.length_dropLast]
      rcases hor with ⟨hmem, hle⟩ | hlt
      · exact .inl ⟨hmem, by omega⟩
      · exact .inr (by omega)
    · rw [if_neg hlen]
      exact h.dropLast hlen
  · rw [if_neg hdd, resolvePart_name hdot hdd]
    by_cases hroot : bs = [[]]
    · obtain ⟨⟨b, rest, hbs, hb⟩, -⟩ := h
      rw [hroot] at hbs
      exact absurd (List.cons.inj hbs).1.symm hb
    · rw [if_neg hroot]
      exact h.concat hp

/-- Once behind, the code's stack does not become that of the components again. -/
theorem Behind.foldl_ne (h : Behind bs comps) (hc : [] ∉ comps) (hp : [] ∉ parts) :
    parts.foldl absolutePart bs ≠ pieces (resolveParts comps parts) := by
  induction parts generalizing bs comps with
  | nil => exact h.ne hc
  | cons part parts ih =>
      obtain ⟨hpart, hrest⟩ := not_or.mp (mt List.mem_cons.mpr hp)
      exact ih (h.next (Ne.symm hpart)) (named_resolvePart hc (Ne.symm hpart)) hrest

/-- **Behind a root** the two agree as long as no `..` finds one component. -/
theorem foldl_absolutePart_iff (hc : [] ∉ comps) (hp : [] ∉ parts) :
    parts.foldl absolutePart (pieces comps) = pieces (resolveParts comps parts) ↔
      WellRead true comps parts := by
  induction parts generalizing comps with
  | nil => exact iff_of_true rfl (wellRead_nil true comps)
  | cons part parts ih =>
      obtain ⟨hpart, hrest⟩ := not_or.mp (mt List.mem_cons.mpr hp)
      have hnext := named_resolvePart hc (Ne.symm hpart)
      rw [List.foldl_cons, resolveParts_cons, wellRead_cons]
      by_cases hmis : Misread true comps part
      · -- the code leaves the last component
        rcases hmis with ⟨rfl, hlen⟩ | ⟨-, hno, -⟩
        · obtain ⟨b, rfl⟩ := List.length_eq_one_iff.mp hlen
          have hb : b ≠ [] := fun hnil => hc (hnil ▸ List.mem_cons_self)
          have hbehind : Behind (absolutePart (pieces [b]) dotdot) (resolvePart [b] dotdot) :=
            ⟨⟨b, [], rfl, hb⟩, .inr (named_pos hb)⟩
          refine iff_of_false (hbehind.foldl_ne hnext hrest) fun h => h.1 (.inl ⟨rfl, hlen⟩)
        · cases hno
      · have hstep : absolutePart (pieces comps) part = pieces (resolvePart comps part) := by
          by_cases hdot : part = [dot]
          · rw [absolutePart, if_pos hdot, hdot, resolvePart_dot]
          rw [absolutePart, if_neg hdot]
          by_cases hdd : part = dotdot
          · have hlen : comps.length ≠ 1 := fun h => hmis (.inl ⟨hdd, h⟩)
            rw [if_pos hdd, hdd, resolvePart_dotdot]
            by_cases hnil : comps = []
            · rw [hnil]
              rfl
            · obtain ⟨init, last, hinit, rfl⟩ := exists_concat_of_length hnil hlen
              rw [List.dropLast_concat, pieces, if_neg hnil, if_neg hlen, List.dropLast_concat,
                pieces, if_neg hinit]
          · rw [if_neg hdd, resolvePart_name hdot hdd, pieces]
            by_cases hnil : comps = []
            · rw [hnil]
              rfl
            · have hroot : comps ≠ [[]] := fun h => hc (h ▸ List.mem_cons_self)
              rw [if_neg hnil, if_neg hroot, pieces, if_neg (by simp)]
        rw [hstep, ih hnext hrest]
        exact (and_iff_right hmis).symm

/-- The root alone. -/
theorem foldl_absolutePart_root (hhead : bs.head? = some []) (hlen : comps.length ≤ named bs)
    (hone : bs.length = 1) (hp : [] ∉ parts) :
    parts.foldl absolutePart bs = pieces (resolveParts comps parts) ↔
      ∃ rest, climbOut (bs.length - 1) parts = some rest ∧ WellRead true [] rest := by
  obtain ⟨b, rfl⟩ := List.length_eq_one_iff.mp hone
  obtain rfl : b = [] := Option.some.inj hhead
  obtain rfl : comps = [] := List.length_eq_zero_iff.mp (Nat.le_zero.mp hlen)
  have hiff := foldl_absolutePart_iff (List.not_mem_nil : [] ∉ ([] : List Filename)) hp
  refine hiff.trans ⟨fun h => ⟨parts, ?_, h⟩, ?_⟩
  · cases parts <;> rfl
  · rintro ⟨rest, hrest, h⟩
    cases parts <;> cases hrest <;> exact h

theorem exists_length_add_two (hhead : bs.head? = some []) (hone : bs.length ≠ 1) :
    ∃ n, bs.length = n + 2 := by
  rcases bs with - | ⟨b, - | ⟨c, rest⟩⟩
  · cases hhead
  · exact absurd rfl hone
  · exact ⟨rest.length, rfl⟩

/-- **Behind two slashes** they agree where the parts climb down to the first of them, and from
there on as behind a root. -/
theorem foldl_absolutePart_climb (hhead : bs.head? = some []) (hlen : comps.length ≤ named bs)
    (hc : [] ∉ comps) (hp : [] ∉ parts) :
    parts.foldl absolutePart bs = pieces (resolveParts comps parts) ↔
      ∃ rest, climbOut (bs.length - 1) parts = some rest ∧ WellRead true [] rest := by
  induction parts generalizing bs comps with
  | nil =>
      by_cases hone : bs.length = 1
      · exact foldl_absolutePart_root hhead hlen hone List.not_mem_nil
      · obtain ⟨n, hn⟩ := exists_length_add_two hhead hone
        refine iff_of_false ?_ ?_
        · intro heq
          have hmem : [] ∈ bs := List.mem_of_head? hhead
          rw [List.foldl_nil, resolveParts, List.foldl_nil, pieces] at heq
          split at heq
          · exact hone (congrArg List.length heq)
          · exact hc (heq ▸ hmem)
        · rintro ⟨rest, hrest, -⟩
          rw [hn] at hrest
          cases hrest
  | cons part parts ih =>
      obtain ⟨hpart, hparts⟩ := not_or.mp (mt List.mem_cons.mpr hp)
      by_cases hone : bs.length = 1
      · exact foldl_absolutePart_root hhead hlen hone hp
      obtain ⟨n, hn⟩ := exists_length_add_two hhead hone
      have hnext := named_resolvePart hc (Ne.symm hpart)
      rw [List.foldl_cons, resolveParts_cons, hn]
      show _ ↔ ∃ rest, climbOut (n + 1) (part :: parts) = some rest ∧ WellRead true [] rest
      by_cases hdot : part = [dot]
      · rw [absolutePart, if_pos hdot, climbOut, if_pos hdot, hdot, resolvePart_dot]
        have hdown := ih hhead hlen hc hparts
        rwa [hn] at hdown
      rw [absolutePart, if_neg hdot, climbOut, if_neg hdot]
      by_cases hdd : part = dotdot
      · rw [if_pos hdd, if_neg hone, if_pos hdd]
        rw [hdd, resolvePart_dotdot] at hnext ⊢
        have hne : bs ≠ [] := fun hnil => by rw [hnil] at hhead; cases hhead
        obtain ⟨init, last, hinit, rfl⟩ := exists_concat_of_length hne hone
        rw [List.dropLast_concat]
        rw [named_concat] at hlen
        rw [List.head?_append_of_ne_nil _ hinit] at hhead
        rw [List.length_append, List.length_singleton] at hn
        have hdown := @ih init comps.dropLast hhead ?_ hnext hparts
        · rwa [show init.length - 1 = n by omega] at hdown
        · rw [List.length_dropLast]
          split at hlen <;> omega
      · have hroot : bs ≠ [[]] := fun h => hone (congrArg List.length h)
        rw [if_neg hdd, if_neg hroot, if_neg hdd]
        rw [resolvePart_name hdot hdd] at hnext ⊢
        have hup := @ih (bs ++ [part]) (comps ++ [part]) ?_ ?_ hnext hparts
        · rwa [List.length_append, List.length_singleton,
            show bs.length + 1 - 1 = n + 2 by omega] at hup
        · rw [List.head?_append, hhead]
          rfl
        · rw [named_concat, if_neg (Ne.symm hpart), List.length_append, List.length_singleton]
          exact Nat.add_le_add_right hlen 1

end

/-! ### Relative paths -/

section
variable {bs bs' comps : List Filename} {part : Filename} {parts : List Filename}

/-- The code's stack will not be that of the components: it is behind, or its lowest name is not
the lowest component. -/
def Apart (bs comps : List Filename) : Prop :=
  Behind bs comps ∨
    ∃ b c rest rest', bs = b :: rest ∧ comps = c :: rest' ∧ b ≠ c ∧ 2 ≤ b.length ∧
      rest.length ≤ rest'.length

/-- A path that is apart has a first name. -/
theorem Apart.head (h : Apart bs comps) : bs ≠ [] ∧ bs.head? ≠ some [] := by
  rcases h with ⟨⟨b, rest, rfl, hb⟩, -⟩ | ⟨b, c, rest, rest', rfl, -, -, hlen, -⟩
  · exact ⟨List.cons_ne_nil _ _, fun h => hb (Option.some.inj h)⟩
  · refine ⟨List.cons_ne_nil _ _, fun h => ?_⟩
    rw [Option.some.inj h] at hlen
    cases hlen

/-- It is another path. -/
theorem Apart.ne (h : Apart bs comps) (hc : [] ∉ comps) : bs ≠ comps := by
  rintro rfl
  rcases h with h | ⟨b, c, rest, rest', rfl, heq, hbc, -⟩
  · refine h.ne hc ?_
    obtain ⟨⟨b, rest, rfl, -⟩, -⟩ := h
    rfl
  · exact hbc (List.cons.inj heq).1

/-- A relative path of one byte at most. -/
theorem eq_singleton_of_short (hne : bs ≠ []) (hhead : bs.head? ≠ some [])
    (h : ¬ ([slash].intercalate bs).length > 1) : ∃ c, bs = [[c]] := by
  rcases bs with - | ⟨- | ⟨c, b⟩, rest⟩
  · exact absurd rfl hne
  · exact absurd rfl hhead
  · rw [List.intercalate_cons_cons_left, List.length_cons] at h
    have hnil : [slash].intercalate (b :: rest) = [] := by
      rw [← List.length_eq_zero_iff]
      omega
    have hb := (intercalate_eq_nil_iff (List.cons_ne_nil b rest)).mp hnil
    obtain ⟨rfl, rfl⟩ := List.cons.inj hb
    exact ⟨c, rfl⟩

/-- The pieces of the result have no slash in them. -/
theorem relativePart_pieces (hbs : Pieces slash bs) (hp : slash ∉ part)
    (hs : relativePart bs part = .ok bs') (hne : bs ≠ []) (hhead : bs.head? ≠ some []) :
    Pieces slash bs' := by
  unfold relativePart at hs
  split at hs
  · cases hs
    exact hbs
  · split at hs
    · split at hs
      · cases hs
      · cases hs
        exact hbs.dropLast
    · split at hs
      · cases hs
        exact hbs.concat hp
      case isFalse hshort =>
        cases hs
        obtain ⟨c, rfl⟩ := eq_singleton_of_short hne hhead hshort
        rw [List.intercalate_singleton]
        refine .singleton fun hmem => ?_
        rcases List.mem_append.mp hmem with hmem | hmem
        · exact hbs [c] List.mem_cons_self hmem
        · exact hp hmem

/-- What is apart stays apart. -/
theorem Apart.next (h : Apart bs comps) (hp : part ≠ [])
    (hs : relativePart bs part = .ok bs') : Apart bs' (resolvePart comps part) := by
  by_cases hdot : part = [dot]
  · rw [relativePart, if_pos hdot] at hs
    cases hs
    rw [hdot, resolvePart_dot]
    exact h
  rw [relativePart, if_neg hdot] at hs
  by_cases hdd : part = dotdot
  · rw [if_pos hdd] at hs
    rw [hdd, resolvePart_dotdot]
    split at hs
    · cases hs
    case isFalse hlen =>
      cases hs
      rcases h with h | ⟨b, c, rest, rest', rfl, rfl, hbc, hb, hle⟩
      · exact .inl (h.dropLast hlen)
      · have hrest : rest ≠ [] := fun hnil => hlen (by rw [hnil]; rfl)
        have hrest' : rest' ≠ [] := by
          intro hnil
          rw [hnil] at hle
          exact hrest (List.length_eq_zero_iff.mp (Nat.le_zero.mp hle))
        refine .inr ⟨b, c, rest.dropLast, rest'.dropLast, ?_, ?_, hbc, hb, ?_⟩
        · exact List.dropLast_cons_of_ne_nil hrest
        · exact List.dropLast_cons_of_ne_nil hrest'
        · rw [List.length_dropLast, List.length_dropLast]
          omega
  · rw [if_neg hdd] at hs
    rw [resolvePart_name hdot hdd]
    split at hs
    · cases hs
      rcases h with h | ⟨b, c, rest, rest', rfl, rfl, hbc, hb, hle⟩
      · exact .inl (h.concat hp)
      · refine .inr ⟨b, c, rest ++ [part], rest' ++ [part], rfl, rfl, hbc, hb, ?_⟩
        rw [List.length_append, List.length_append]
        exact Nat.add_le_add_right hle _
    case isFalse hshort =>
      cases hs
      obtain ⟨c, rfl⟩ := eq_singleton_of_short h.head.1 h.head.2 hshort
      rcases h with ⟨-, ⟨hmem, -⟩ | hlt⟩ | ⟨b, d, rest, rest', heq, -, -, hb, -⟩
      · exact absurd (List.mem_singleton.mp hmem) (List.cons_ne_nil c []).symm
      · -- the name is put behind the one that is to be taken off
        obtain rfl : comps = [] := List.length_eq_zero_iff.mp (Nat.lt_one_iff.mp hlt)
        have hlen := List.length_pos_iff.mpr hp
        refine .inr ⟨c :: part, part, [], [], ?_, rfl, fun h => ?_, Nat.succ_le_succ hlen,
          Nat.le_refl _⟩
        · rw [List.intercalate_singleton]
          rfl
        · exact Nat.succ_ne_self _ (congrArg List.length h)
      · obtain ⟨rfl, -⟩ := List.cons.inj heq
        exact absurd hb (Nat.not_succ_le_self 1)

/-- What is apart at some component ends apart. -/
theorem Apart.appendParts_ne (h : Apart bs comps) (hbs : Pieces slash bs)
    (hcs : Pieces slash comps) (hc : [] ∉ comps) (hp : [] ∉ parts) (hps : Pieces slash parts) :
    appendParts ([slash].intercalate bs) parts ≠
      .ok ([slash].intercalate (resolveParts comps parts)) := by
  induction parts generalizing bs comps with
  | nil =>
      intro heq
      have heq : [slash].intercalate bs = [slash].intercalate comps := Except.ok.inj heq
      by_cases hnil : comps = []
      · rw [hnil, List.intercalate_nil, intercalate_eq_nil_iff h.head.1] at heq
        exact h.head.2 (by rw [heq]; rfl)
      · exact h.ne hc ((intercalate_inj hbs hcs h.head.1 hnil).mp heq)
  | cons part parts ih =>
      obtain ⟨hpart, hrest⟩ := not_or.mp (mt List.mem_cons.mpr hp)
      have hslash : slash ∉ part := hps part List.mem_cons_self
      rw [appendParts, List.foldlM_cons, appendPart_relative h.head.1 hbs h.head.2]
      cases hs : relativePart bs part with
      | error e =>
          intro heq
          cases heq
      | ok bs' =>
          exact ih (h.next (Ne.symm hpart) hs)
            (relativePart_pieces hbs hslash hs h.head.1 h.head.2) (pieces_resolvePart hcs hslash)
            (named_resolvePart hc (Ne.symm hpart)) hrest
            (hps.of_subset (List.subset_cons_self part parts))

/-- **In a relative path** the two agree as long as no `..` finds one component and no name follows
one of one byte. -/
theorem appendParts_relative_iff (hne : comps ≠ []) (hcs : Pieces slash comps) (hc : [] ∉ comps)
    (hp : [] ∉ parts) (hps : Pieces slash parts) :
    appendParts ([slash].intercalate comps) parts =
      .ok ([slash].intercalate (resolveParts comps parts)) ↔ WellRead false comps parts := by
  induction parts generalizing comps with
  | nil => exact iff_of_true rfl (wellRead_nil false comps)
  | cons part parts ih =>
      obtain ⟨hpart, hrest⟩ := not_or.mp (mt List.mem_cons.mpr hp)
      have hslash : slash ∉ part := hps part List.mem_cons_self
      have hparts := hps.of_subset (List.subset_cons_self part parts)
      have hhead : comps.head? ≠ some [] := fun h => hc (List.mem_of_head? h)
      have hnext := named_resolvePart hc (Ne.symm hpart)
      have hnext' := pieces_resolvePart hcs hslash
      rw [appendParts, List.foldlM_cons, appendPart_relative hne hcs hhead, resolveParts_cons,
        wellRead_cons]
      by_cases hmis : Misread false comps part
      · refine iff_of_false ?_ fun h => h.1 hmis
        rcases hmis with ⟨rfl, hlen⟩ | ⟨⟨hdot, hdd⟩, -, c, rfl⟩
        · -- there is no slash
          rw [relativePart, if_neg (by decide), if_pos rfl, if_pos hlen]
          intro heq
          cases heq
        · -- the name is put right behind the one before it
          have hs : relativePart [[c]] part = .ok [c :: part] := by
            rw [relativePart, if_neg hdot, if_neg hdd]
            rfl
          rw [hs]
          rw [resolvePart_name hdot hdd] at hnext hnext' ⊢
          have hlen := List.length_pos_iff.mpr (Ne.symm hpart)
          have hapart : Apart [c :: part] ([[c]] ++ [part]) :=
            .inr ⟨c :: part, [c], [], [part], rfl, rfl,
              fun h => Ne.symm hpart (List.cons.inj h).2, Nat.succ_le_succ hlen, Nat.zero_le _⟩
          exact hapart.appendParts_ne (relativePart_pieces hcs hslash hs hne hhead) hnext' hnext
            hrest hparts
      · have hstep : relativePart comps part = .ok (resolvePart comps part) ∧
            resolvePart comps part ≠ [] := by
          by_cases hdot : part = [dot]
          · rw [relativePart, if_pos hdot, hdot, resolvePart_dot]
            exact ⟨rfl, hne⟩
          rw [relativePart, if_neg hdot]
          by_cases hdd : part = dotdot
          · have hlen : comps.length ≠ 1 := fun h => hmis (.inl ⟨hdd, h⟩)
            obtain ⟨init, last, hinit, rfl⟩ := exists_concat_of_length hne hlen
            rw [if_pos hdd, if_neg hlen, hdd, resolvePart_dotdot, List.dropLast_concat]
            exact ⟨rfl, hinit⟩
          · rw [if_neg hdd, resolvePart_name hdot hdd]
            refine ⟨if_pos ?_, by simp⟩
            by_contra hshort
            obtain ⟨c, rfl⟩ := eq_singleton_of_short hne hhead hshort
            exact hmis (.inr ⟨⟨hdot, hdd⟩, rfl, c, rfl⟩)
        rw [hstep.1]
        exact (ih hstep.2 hnext' hnext hrest hparts).trans (and_iff_right hmis).symm

end

/-! ### The base -/

section
variable {bs comps parts : List Filename} {base f : Filename}

/-- A path without empty pieces is its components. -/
theorem parts_eq_self (h : [] ∉ base.splitOn slash) : base.parts = base.splitOn slash := by
  refine List.filter_eq_self.mpr fun p hp => decide_eq_true fun hnil => h ?_
  rwa [hnil] at hp

/-- The components are the pieces that are names. -/
theorem length_parts (f : Filename) : f.parts.length = named (f.splitOn slash) := by
  rw [parts, named, List.countP_eq_length_filter]

theorem nil_notMem_parts (f : Filename) : [] ∉ f.parts := fun h => ne_nil_of_mem_parts h rfl

/-- The loop is right behind an absolute path if it arrives at the same components. -/
theorem appendParts_absolute_iff (hne : bs ≠ []) (hbs : Pieces slash bs)
    (hcs : Pieces slash comps) (hp : Pieces slash parts) :
    appendParts (slash :: [slash].intercalate bs) parts =
      .ok (joinPath true (resolveParts comps parts)) ↔
      parts.foldl absolutePart bs = pieces (resolveParts comps parts) := by
  have hfold : parts.foldl absolutePart bs ≠ [] ∧ Pieces slash (parts.foldl absolutePart bs) := by
    clear hcs
    induction parts generalizing bs with
    | nil => exact ⟨hne, hbs⟩
    | cons part parts ih =>
        exact ih (absolutePart_ne_nil hne) (pieces_absolutePart hbs (hp part List.mem_cons_self))
          (hp.of_subset (List.subset_cons_self part parts))
  have hpieces := pieces_pieces (pieces_resolveParts hcs hp)
  rw [appendParts_absolute hne hbs hp, joinPath, ← intercalate_pieces (resolveParts comps parts),
    ← intercalate_inj hfold.2 hpieces hfold.1 (pieces_ne_nil _)]
  constructor
  · intro heq
    exact (List.cons.inj (Except.ok.inj heq)).2
  · intro heq
    rw [heq]
    rfl

/-- The path is absolute. -/
theorem appendParts_root_iff (f : Filename) :
    appendParts [slash] f.parts = .ok (joinPath true (resolveParts [] f.parts)) ↔
      WellRead true [] f.parts := by
  have hnil : Pieces slash (pieces []) := .singleton List.not_mem_nil
  exact (appendParts_absolute_iff (pieces_ne_nil []) hnil (List.forall_mem_nil _)
    (pieces_parts f)).trans (foldl_absolutePart_iff List.not_mem_nil (nil_notMem_parts f))

/-- The base is. -/
theorem appendParts_absolute_base_iff {rest : Filename} (hbase : base = slash :: rest)
    (f : Filename) :
    appendParts base f.parts = .ok (joinPath true (resolveParts base.parts f.parts)) ↔
      base = joinPath true base.parts ∧ WellRead true base.parts f.parts ∨
      (∃ rest', base = slash :: slash :: rest') ∧ ∃ parts,
        climbOut (base.count slash - 1) f.parts = some parts ∧ WellRead true [] parts := by
  have hparts : base.parts = rest.parts := by rw [hbase, parts_slash]
  have hbs := pieces_splitOn slash rest
  have hne := List.splitOn_ne_nil slash rest
  have hcount : base.count slash = (rest.splitOn slash).length := by
    rw [length_splitOn, hbase, List.count_cons_self]
  have hiff := appendParts_absolute_iff hne hbs (pieces_parts rest) (pieces_parts f)
  rw [List.intercalate_splitOn, ← hbase] at hiff
  have hcanon : base = joinPath true rest.parts ↔ rest.splitOn slash = pieces rest.parts := by
    rw [← intercalate_inj hbs (pieces_pieces (pieces_parts rest)) hne (pieces_ne_nil _),
      intercalate_pieces, List.intercalate_splitOn, hbase]
    exact ⟨fun h => (List.cons.inj h).2, fun h => congrArg (slash :: ·) h⟩
  rw [hparts, hcount, hiff, hcanon]
  have hnamed := nil_notMem_parts rest
  by_cases hroot : rest = []
  · -- the base is the root
    have hno : ¬ ∃ rest', base = slash :: slash :: rest' := by
      rw [hbase, hroot]
      rintro ⟨rest', h⟩
      cases h
    rw [or_iff_left fun h => hno h.1]
    have hpieces : rest.splitOn slash = pieces rest.parts := by
      rw [hroot]
      rfl
    rw [hpieces, foldl_absolutePart_iff hnamed (nil_notMem_parts f)]
    exact (and_iff_right rfl).symm
  by_cases hhead : (rest.splitOn slash).head? = some []
  · -- it begins with two slashes
    have htwo : rest.head? = some slash := (head_splitOn_eq_nil hhead).resolve_left hroot
    have hno : rest.splitOn slash ≠ pieces rest.parts := by
      intro heq
      rw [pieces] at heq
      split at heq
      · have hjoin : [slash].intercalate (rest.splitOn slash) = rest :=
          List.intercalate_splitOn slash
        rw [heq] at hjoin
        exact hroot hjoin.symm
      · exact hnamed (heq ▸ List.mem_of_head? hhead)
    rw [or_iff_right fun h => hno h.1, foldl_absolutePart_climb hhead
      (Nat.le_of_eq (length_parts rest)) hnamed (nil_notMem_parts f)]
    refine (and_iff_right ?_).symm
    obtain ⟨c, rest', rfl⟩ := List.exists_cons_of_ne_nil hroot
    rw [hbase, Option.some.inj htwo]
    exact ⟨rest', rfl⟩
  · have hno : ¬ ∃ rest', base = slash :: slash :: rest' := by
      rw [hbase]
      rintro ⟨rest', h⟩
      rw [(List.cons.inj h).2, List.splitOn_cons_eq_if_modifyHead, if_pos (BEq.refl slash)] at hhead
      exact hhead rfl
    rw [or_iff_left fun h => hno h.1]
    by_cases hempty : [] ∈ rest.splitOn slash
    · obtain ⟨b, bs, hsplit⟩ := List.exists_cons_of_ne_nil hne
      have hb : b ≠ [] := fun hnil => hhead (by rw [hsplit, hnil]; rfl)
      have hbehind : Behind (rest.splitOn slash) rest.parts :=
        ⟨⟨b, bs, hsplit, hb⟩, .inl ⟨hempty, (Nat.le_of_eq (length_parts rest))⟩⟩
      exact iff_of_false (hbehind.foldl_ne hnamed (nil_notMem_parts f))
        fun h => hbehind.ne hnamed h.1
    · have hpieces : rest.splitOn slash = pieces rest.parts := by
        rw [parts_eq_self hempty, pieces, if_neg hne]
      rw [hpieces, foldl_absolutePart_iff hnamed (nil_notMem_parts f)]
      exact (and_iff_right rfl).symm

/-- The base is relative. -/
theorem appendParts_relative_base_iff (hbase : base ≠ []) (hrel : base.isAbsolute = false)
    (f : Filename) :
    appendParts base f.parts = .ok (joinPath false (resolveParts base.parts f.parts)) ↔
      base = joinPath false base.parts ∧ WellRead false base.parts f.parts := by
  have hbs := pieces_splitOn slash base
  have hne := List.splitOn_ne_nil slash base
  have hnamed := nil_notMem_parts base
  have hhead : (base.splitOn slash).head? ≠ some [] := by
    intro hhead
    rcases head_splitOn_eq_nil hhead with hnil | hslash
    · exact hbase hnil
    · exact absurd hslash (of_decide_eq_false hrel)
  by_cases hempty : [] ∈ base.splitOn slash
  · obtain ⟨b, bs, hsplit⟩ := List.exists_cons_of_ne_nil hne
    have hb : b ≠ [] := fun hnil => hhead (by rw [hsplit, hnil]; rfl)
    have hapart : Apart (base.splitOn slash) base.parts :=
      .inl ⟨⟨b, bs, hsplit, hb⟩, .inl ⟨hempty, (Nat.le_of_eq (length_parts base))⟩⟩
    have hparts := hapart.appendParts_ne hbs (pieces_parts base) hnamed (nil_notMem_parts f)
      (pieces_parts f)
    rw [List.intercalate_splitOn] at hparts
    refine iff_of_false hparts fun h => ?_
    have hself := hapart.appendParts_ne hbs (pieces_parts base) hnamed List.not_mem_nil
      (List.forall_mem_nil _)
    rw [List.intercalate_splitOn] at hself
    exact hself (congrArg Except.ok h.1)
  · rw [parts_eq_self hempty, show joinPath false (base.splitOn slash) = base from
      List.intercalate_splitOn slash, and_iff_right rfl]
    have hiff := appendParts_relative_iff hne hbs hempty (nil_notMem_parts f) (pieces_parts f)
    rwa [List.intercalate_splitOn] at hiff

/-- **`make_absolute_to_dir` resolves** the path exactly if it is absolute or the base is spelled
with single slashes (or begins with two, and the path climbs out of it), no `..` comes where one
component is left, and no name where a relative name of one byte is. -/
theorem makeAbsoluteToDir_resolves_iff (currentDir f : Filename) (hbase : base ≠ []) :
    makeAbsoluteToDir currentDir f base = .ok (resolve base f) ↔ Resolvable base f := by
  rw [makeAbsoluteToDir_eq, start, resolve, Resolvable, if_pos (List.length_pos_iff.mpr hbase)]
  by_cases hf : f.isAbsolute = true
  · rw [if_pos hf, if_pos hf, if_pos hf]
    exact appendParts_root_iff f
  · rw [if_neg hf, if_neg hf, if_neg hf]
    cases habs : base.isAbsolute with
    | true =>
        obtain ⟨c, rest, rfl⟩ := List.exists_cons_of_ne_nil hbase
        obtain rfl : c = slash := Option.some.inj (of_decide_eq_true habs)
        exact appendParts_absolute_base_iff rfl f
    | false =>
        have hno : ¬ ∃ rest, base = slash :: slash :: rest := by
          rintro ⟨rest, rfl⟩
          cases habs
        rw [or_iff_left fun h => hno h.1]
        exact appendParts_relative_base_iff hbase habs f

end

/-- `dir/a` and `../b.c`. -/
theorem makeAbsoluteToDir_resolves_parent :
    makeAbsoluteToDir [slash] [dot, dot, slash, 98, dot, 99] [100, 105, 114, slash, 97] =
      .ok [100, 105, 114, slash, 98, dot, 99] := by
  have hread : Resolvable [100, 105, 114, slash, 97] [dot, dot, slash, 98, dot, 99] := by
    refine .inl ⟨by decide, ?_⟩
    refine wellRead_cons.mpr ⟨?_, wellRead_cons.mpr ⟨?_, wellRead_nil _ _⟩⟩
    · rintro (⟨-, hlen⟩ | ⟨⟨-, hdd⟩, -⟩)
      · exact absurd hlen (by decide)
      · exact hdd rfl
    · rintro (⟨hdd, -⟩ | ⟨-, -, c, hc⟩)
      · exact absurd hdd (by decide)
      · have hlen : [3] = [1] := congrArg (fun comps => comps.map List.length) hc
        exact absurd hlen (by decide)
  exact (makeAbsoluteToDir_resolves_iff [slash] [dot, dot, slash, 98, dot, 99]
    (List.cons_ne_nil _ _)).mpr hread

/-- The name `b` in the directory `a` is not `ab`. -/
theorem makeAbsoluteToDir_merges : ¬ ∀ currentDir f base : Filename, base ≠ [] →
    makeAbsoluteToDir currentDir f base = .ok (resolve base f) := by
  intro hall
  exact absurd (hall [slash] [98] [97] (List.cons_ne_nil _ _)) (by decide)

end NovaProva.Filename
