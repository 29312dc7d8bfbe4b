import NovaProva.Spiegel.Mapping
import Mathlib.Data.List.Pairwise
import Mathlib.Data.List.Sort

/-!
# Spiegel — Sections

The second half of `link_object_t::map_sections`: the sections that no system mapping has are
sorted, coalesced into as few mappings as their pages allow, mapped, and pointed into them.

* `coalesce`: what is merged, decided on a rounded end and an offset that is not rounded yet.
* `Coalesced`: the invariant of that loop; only the last mapping can still grow.
* `mapSections_maps`: what holds of the sections and the mappings afterwards.

`qsort` and `mmap` are given by what they are documented to do.
-/

namespace NovaProva

/-! ### Pages and mappings -/

/-- `page_round_up`, of `unsigned long`s. -/
def pageRoundUp (ps x : Nat) : Nat := (x + ps + (2 ^ 64 - 1)) % 2 ^ 64 / ps * ps

/-- `page_round_down`. -/
def pageRoundDown (ps x : Nat) : Nat := x / ps * ps

namespace Mapping

/-- `is_mapped`. -/
def isMapped (m : Mapping) : Bool := m.map ≠ 0

/-- `set_end`. -/
def setEnd (m : Mapping) (e : Nat) : Mapping :=
  { m with size := (e + (2 ^ 64 - m.offset)) % 2 ^ 64 }

/-- `expand_to_pages`. -/
def expandToPages (ps : Nat) (m : Mapping) : Mapping :=
  let e := pageRoundUp ps ((m.offset + m.size) % 2 ^ 64)
  let offset := pageRoundDown ps m.offset
  { m with offset := offset, size := (e + (2 ^ 64 - offset)) % 2 ^ 64 }

/-- `mapping_t::mmap`, of which `sys` is the system call. -/
def mmap (ps : Nat) (sys : Nat → Nat → Option Nat) (m : Mapping) : Option Mapping :=
  let m := m.expandToPages ps
  (sys m.offset m.size).map fun map => { m with map := map }

end Mapping

/-! ### Mapping the sections -/

/-- A section that has to be mapped. -/
def Mapping.Unmapped (s : Mapping) : Prop := s.isMapped = false ∧ s.size ≠ 0

instance (s : Mapping) : Decidable s.Unmapped := inferInstanceAs (Decidable (_ ∧ _))

/-- `qsort` with `compare_by_offset`, of sections with their indices. -/
structure OffsetSort where
  sort : List (Mapping × Nat) → List (Mapping × Nat)
  perm : ∀ l, (sort l).Perm l
  sorted : ∀ l, (sort l).Pairwise fun s t => s.1.offset ≤ t.1.offset

/-- `tsec`: the sections that have to be mapped, each with its index, by offset. -/
def tsec (qsort : OffsetSort) (sections : List Mapping) : List (Mapping × Nat) :=
  qsort.sort (sections.zipIdx.filter fun s => s.1.Unmapped)

/-- One turn of the coalescing loop. -/
def extend (ps : Nat) (mappings : List Mapping) (sec : Mapping) : List Mapping :=
  match mappings.getLast? with
  | none => mappings ++ [sec]
  | some back =>
    if pageRoundUp ps back.getEnd ≥ sec.offset then
      mappings.dropLast ++ [back.setEnd sec.getEnd]
    else mappings ++ [sec]

/-- The loop that joins the sections whose pages overlap or meet. -/
def coalesce (ps : Nat) (secs : List Mapping) : List Mapping := secs.foldl (extend ps) []

/-- The loop of `mmap`s; `sys i` is the answer to the call for the mapping at `i`. -/
def mmapAll (ps : Nat) (sys : Nat → Nat → Nat → Option Nat) : Nat → List Mapping →
    Option (List Mapping)
  | _, [] => some []
  | i, m :: ms =>
    (m.mmap ps (sys i)).bind fun m' => (mmapAll ps sys (i + 1) ms).map fun ms' => m' :: ms'

/-- A section pointed into the first mapping that contains it; `none` where the assertion that it
is mapped then fires. -/
def setupSection (mappings : List Mapping) (s : Mapping) : Option Mapping :=
  let s := ((mappings.find? fun m => m.contains s).map s.mapFrom).getD s
  if s.isMapped then some s else none

/-- `setup sections[].map`. -/
def setupSections (mappings : List Mapping) : List (Mapping × Nat) → List Mapping →
    Option (List Mapping)
  | [], sections => some sections
  | s :: rest, sections =>
    (setupSection mappings s.1).bind fun s' => setupSections mappings rest (sections.set s.2 s')

/-- What ends `map_sections` other than its return. -/
inductive MapError where
  | mmapFailed
  | assertion
  deriving DecidableEq

/-- `map_sections` from the coalescing on, for an object without mappings: the sections and the
mappings. -/
def mapSections (qsort : OffsetSort) (ps : Nat) (sys : Nat → Nat → Nat → Option Nat)
    (sections : List Mapping) : Except MapError (List Mapping × List Mapping) :=
  match mmapAll ps sys 0 (coalesce ps ((tsec qsort sections).map Prod.fst)) with
  | none => .error .mmapFailed
  | some mappings =>
    match setupSections mappings (tsec qsort sections) sections with
    | none           => .error .assertion
    | some sections' => .ok (sections', mappings)

/-! ### Rounding -/

section Rounding

variable {ps x : Nat}

/-- `page_round_up`, without wrap-around. -/
theorem pageRoundUp_eq (hps : 0 < ps) (hx : x + ps < 2 ^ 64) :
    pageRoundUp ps x = (x + ps - 1) / ps * ps := by
  have hmod : (x + ps + (2 ^ 64 - 1)) % 2 ^ 64 = x + ps - 1 := by omega
  unfold pageRoundUp
  rw [hmod]

/-- `page_round_up` goes to the start of a page. -/
theorem dvd_pageRoundUp : ps ∣ pageRoundUp ps x := Nat.dvd_mul_left _ _

/-- `page_round_down` goes to the start of a page. -/
theorem dvd_pageRoundDown : ps ∣ pageRoundDown ps x := Nat.dvd_mul_left _ _

/-- `page_round_down` does not go up. -/
theorem pageRoundDown_le : pageRoundDown ps x ≤ x := Nat.div_mul_le_self _ _

/-- `page_round_up` does not go down. -/
theorem le_pageRoundUp (hps : 0 < ps) (hx : x + ps < 2 ^ 64) : x ≤ pageRoundUp ps x := by
  have h := Nat.lt_div_mul_add hps (a := x + ps - 1)
  rw [pageRoundUp_eq hps hx]
  omega

/-- `page_round_up` goes up by less than a page. -/
theorem pageRoundUp_lt (hps : 0 < ps) (hx : x + ps < 2 ^ 64) : pageRoundUp ps x < x + ps := by
  have h := Nat.div_mul_le_self (x + ps - 1) ps
  rw [pageRoundUp_eq hps hx]
  omega

/-- What begins behind a page boundary begins in a page behind it. -/
theorem le_pageRoundDown {y : Nat} (hdvd : ps ∣ y) (h : y ≤ x) : y ≤ pageRoundDown ps x := by
  obtain ⟨k, rfl⟩ := hdvd
  rcases Nat.eq_zero_or_pos ps with rfl | hps
  · simp
  · have hk : k ≤ x / ps := (Nat.le_div_iff_mul_le hps).mpr (by rw [Nat.mul_comm]; exact h)
    calc ps * k = k * ps := Nat.mul_comm _ _
      _ ≤ x / ps * ps := Nat.mul_le_mul_right _ hk

end Rounding

/-! ### Ranges of the file -/

namespace Mapping

/-- The end of a range of the file. -/
def stop (m : Mapping) : Nat := m.offset + m.size

/-- A range of the file that ends a page before the end of the numbers. -/
structure Fits (ps : Nat) (m : Mapping) : Prop where
  size_pos : 0 < m.size
  stop_lt : m.stop + ps < 2 ^ 64

variable {ps : Nat} {m s : Mapping}

theorem Fits.offset_lt (h : m.Fits ps) : m.offset < m.stop := Nat.lt_add_of_pos_right h.size_pos

/-- The end, without wrap-around. -/
theorem getEnd_eq (h : m.stop < 2 ^ 64) : m.getEnd = m.stop := Nat.mod_eq_of_lt h

/-- A mapping contains one that starts and ends within it. -/
theorem contains_iff (hm : m.stop < 2 ^ 64) (hs : s.stop < 2 ^ 64) :
    m.contains s = true ↔ m.offset ≤ s.offset ∧ s.stop ≤ m.stop := by
  unfold contains
  rw [getEnd_eq hm, getEnd_eq hs, Bool.and_eq_true, decide_eq_true_eq, decide_eq_true_eq]

/-- The end is where it was set. -/
theorem setEnd_stop {e : Nat} (hle : m.offset ≤ e) (he : e < 2 ^ 64) : (m.setEnd e).stop = e := by
  unfold setEnd stop
  dsimp only
  omega

/-- A mapping expanded to pages ends with one. -/
theorem expandToPages_stop (hps : 0 < ps) (h : m.Fits ps) :
    (m.expandToPages ps).stop = pageRoundUp ps m.stop := by
  have hstop := h.stop_lt
  have hoffset : m.offset + m.size < 2 ^ 64 := Nat.lt_of_le_of_lt (Nat.le_add_right _ ps) hstop
  have hdown : pageRoundDown ps m.offset ≤ m.offset := pageRoundDown_le
  have hup := le_pageRoundUp hps hstop
  have hlt := pageRoundUp_lt hps hstop
  have hle := h.offset_lt
  unfold expandToPages
  rw [Nat.mod_eq_of_lt hoffset]
  show pageRoundDown ps m.offset +
    (pageRoundUp ps m.stop + (2 ^ 64 - pageRoundDown ps m.offset)) % 2 ^ 64 = pageRoundUp ps m.stop
  omega

/-- A mapping expanded to pages starts with one. -/
theorem expandToPages_offset : (m.expandToPages ps).offset = pageRoundDown ps m.offset := rfl

/-- Once expanded, a mapping has whole pages. -/
theorem expandToPages_aligned (hps : 0 < ps) (h : m.Fits ps) :
    ps ∣ (m.expandToPages ps).offset ∧ ps ∣ (m.expandToPages ps).size := by
  have hstop := expandToPages_stop hps h
  have hsize : (m.expandToPages ps).size = pageRoundUp ps m.stop - pageRoundDown ps m.offset := by
    rw [← hstop]
    exact (Nat.add_sub_cancel_left ..).symm
  rw [hsize]
  exact ⟨dvd_pageRoundDown, Nat.dvd_sub dvd_pageRoundUp dvd_pageRoundDown⟩

/-- A mapping expanded to pages does not wrap around. -/
theorem expandToPages_stop_lt (hps : 0 < ps) (h : m.Fits ps) :
    (m.expandToPages ps).stop < 2 ^ 64 := by
  rw [expandToPages_stop hps h]
  exact Nat.lt_trans (pageRoundUp_lt hps h.stop_lt) h.stop_lt

end Mapping

/-! ### Coalescing -/

/-- **The invariant of the coalescing loop** after the sections `done`: all of them are covered,
the mappings are whole pages apart, and the last one ends where the last section does. -/
structure Coalesced (ps : Nat) (done ms : List Mapping) : Prop where
  fits : ∀ m ∈ ms, m.Fits ps
  covers : ∀ s ∈ done, ∃ m ∈ ms, m.offset ≤ s.offset ∧ s.stop ≤ m.stop
  apart : ms.Pairwise fun m m' => pageRoundUp ps m.stop < m'.offset
  last : ∀ b, ms.getLast? = some b → ∃ s ∈ done, b.stop = s.stop

section Coalesce

variable {ps : Nat} {done ms : List Mapping} {s : Mapping}

theorem Coalesced.nil (ps : Nat) : Coalesced ps [] [] where
  fits _ h := absurd h List.not_mem_nil
  covers _ h := absurd h List.not_mem_nil
  apart := List.Pairwise.nil
  last _ h := absurd h.symm (Option.some_ne_none _)

/-- A section that is behind the pages of the last mapping gets a mapping of its own. -/
theorem Coalesced.push (h : Coalesced ps done ms) (hs : s.Fits ps)
    (hlast : ∀ m ∈ ms, pageRoundUp ps m.stop < s.offset) :
    Coalesced ps (done ++ [s]) (ms ++ [s]) where
  fits m hm := by
    rcases List.mem_append.mp hm with hm | hm
    · exact h.fits m hm
    · rw [List.mem_singleton.mp hm]
      exact hs
  covers t ht := by
    rcases List.mem_append.mp ht with ht | ht
    · obtain ⟨m, hm, hle⟩ := h.covers t ht
      exact ⟨m, List.mem_append_left _ hm, hle⟩
    · rw [List.mem_singleton.mp ht]
      exact ⟨s, List.mem_append_right _ List.mem_cons_self, Nat.le_refl _, Nat.le_refl _⟩
  apart := by
    rw [List.pairwise_append]
    refine ⟨h.apart, List.pairwise_singleton _ _, fun m hm x hx => ?_⟩
    rw [List.mem_singleton.mp hx]
    exact hlast m hm
  last b hb := by
    rw [List.getLast?_concat] at hb
    obtain rfl := Option.some.inj hb
    exact ⟨s, List.mem_append_right _ List.mem_cons_self, rfl⟩

/-- A section that begins in or right behind the pages of the last mapping extends it. -/
theorem Coalesced.grow {init : List Mapping} {b : Mapping} (h : Coalesced ps done (init ++ [b]))
    (hs : s.Fits ps) (hbehind : b.stop ≤ s.offset) :
    Coalesced ps (done ++ [s]) (init ++ [b.setEnd s.stop]) := by
  have hb := h.fits b (List.mem_append_right _ List.mem_cons_self)
  have hoffset := hb.offset_lt
  have hlt := hs.offset_lt
  have hbound := hs.stop_lt
  have hstop : (b.setEnd s.stop).stop = s.stop := Mapping.setEnd_stop (by omega) (by omega)
  refine ⟨?_, ?_, ?_, ?_⟩
  · intro m hm
    rcases List.mem_append.mp hm with hm | hm
    · exact h.fits m (List.mem_append_left _ hm)
    · rw [List.mem_singleton.mp hm]
      have hsize : (b.setEnd s.stop).stop = b.offset + (b.setEnd s.stop).size := rfl
      exact ⟨by omega, by omega⟩
  · intro t ht
    rcases List.mem_append.mp ht with ht | ht
    · obtain ⟨m, hm, hle, hend⟩ := h.covers t ht
      rcases List.mem_append.mp hm with hm | hm
      · exact ⟨m, List.mem_append_left _ hm, hle, hend⟩
      · rw [List.mem_singleton.mp hm] at hle hend
        exact ⟨_, List.mem_append_right _ List.mem_cons_self, hle, by omega⟩
    · rw [List.mem_singleton.mp ht]
      refine ⟨_, List.mem_append_right _ List.mem_cons_self, ?_, by omega⟩
      show b.offset ≤ s.offset
      omega
  · -- only the offset of the last mapping counts for the distances
    obtain ⟨hinit, -, hcross⟩ := List.pairwise_append.mp h.apart
    rw [List.pairwise_append]
    refine ⟨hinit, List.pairwise_singleton _ _, fun m hm x hx => ?_⟩
    rw [List.mem_singleton.mp hx]
    exact hcross m hm b List.mem_cons_self
  · intro c hc
    rw [List.getLast?_concat] at hc
    obtain rfl := Option.some.inj hc
    exact ⟨s, List.mem_append_right _ List.mem_cons_self, hstop⟩

/-- **Step.**  The next section is behind all the sections before it. -/
theorem Coalesced.extend (hps : 0 < ps) (h : Coalesced ps done ms) (hs : s.Fits ps)
    (hbehind : ∀ t ∈ done, t.stop ≤ s.offset) : Coalesced ps (done ++ [s]) (extend ps ms s) := by
  unfold NovaProva.extend
  rcases List.eq_nil_or_concat ms with rfl | ⟨init, b, rfl⟩
  · exact h.push hs fun _ hm => absurd hm List.not_mem_nil
  · rw [List.concat_eq_append] at h ⊢
    rw [List.getLast?_concat, List.dropLast_concat]
    have hb := h.fits b (List.mem_append_right _ List.mem_cons_self)
    have hsstop := hs.stop_lt
    have hbstop := hb.stop_lt
    obtain ⟨t, ht, hlast⟩ := h.last b (List.getLast?_concat ..)
    have hle := hbehind t ht
    dsimp only
    rw [Mapping.getEnd_eq (m := b) (by omega), Mapping.getEnd_eq (m := s) (by omega)]
    split
    case isTrue => exact h.grow hs (by omega)
    case isFalse hgap =>
      refine h.push hs fun m hm => ?_
      rcases List.mem_append.mp hm with hm | hm
      · have happart := (List.pairwise_append.mp h.apart).2.2 m hm b List.mem_cons_self
        have hoffset := hb.offset_lt
        omega
      · rw [List.mem_singleton.mp hm]
        exact Nat.not_le.mp hgap

/-- **The loop** keeps the sections so far covered by mappings apart. -/
theorem Coalesced.foldl (hps : 0 < ps) {rest : List Mapping} (h : Coalesced ps done ms)
    (hfits : ∀ s ∈ rest, s.Fits ps)
    (hbehind : (done ++ rest).Pairwise fun t s => t.stop ≤ s.offset) :
    Coalesced ps (done ++ rest) (rest.foldl (NovaProva.extend ps) ms) := by
  induction rest generalizing done ms with
  | nil =>
    rw [List.append_nil]
    exact h
  | cons s rest ih =>
    have hcons : done ++ s :: rest = (done ++ [s]) ++ rest := by simp
    have hs : ∀ t ∈ done, t.stop ≤ s.offset := fun t ht =>
      (List.pairwise_append.mp hbehind).2.2 t ht s List.mem_cons_self
    rw [hcons] at hbehind ⊢
    exact ih (h.extend hps (hfits s List.mem_cons_self) hs)
      (fun x hx => hfits x (List.mem_cons_of_mem _ hx)) hbehind

/-- **Run.**  All the sections, one behind the other. -/
theorem coalesced_coalesce (hps : 0 < ps) {secs : List Mapping} (hfits : ∀ s ∈ secs, s.Fits ps)
    (hbehind : secs.Pairwise fun t s => t.stop ≤ s.offset) : Coalesced ps secs (coalesce ps secs) :=
  (Coalesced.nil ps).foldl hps hfits hbehind

end Coalesce

/-! ### Mapping -/

/-- What a successful `mmap` of whole pages at `map` means: the region lies in the address space,
and behind it is the file. -/
structure Mapping.Shows (file : List UInt8) (mem : Nat → UInt8) (m : Mapping) (map : Nat) :
    Prop where
  map_pos : 0 < map
  map_le : map + m.size ≤ 2 ^ 64
  mem_eq : ∀ k < m.size, mem ((map + k) % 2 ^ 64) = file.getD (m.offset + k) 0

/-- Every call from the one for `i` on, of these mappings, succeeds. -/
def Succeed (sys : Nat → Nat → Nat → Option Nat) (file : List UInt8) (mem : Nat → UInt8) (i : Nat)
    (ms : List Mapping) : Prop :=
  ∀ j m, ms[j]? = some m → ∃ map, sys (i + j) m.offset m.size = some map ∧ m.Shows file mem map

/-- Where a mapping lies in the file. -/
def Mapping.range (m : Mapping) : Nat × Nat := (m.offset, m.size)

section Mmap

variable {ps : Nat} {sys : Nat → Nat → Nat → Option Nat} {file : List UInt8} {mem : Nat → UInt8}

/-- Where every `mmap` succeeds, every mapping shows its part of the file. -/
theorem mmapAll_spec {i : Nat} {ms : List Mapping}
    (h : Succeed sys file mem i (ms.map (Mapping.expandToPages ps))) :
    ∃ ms', mmapAll ps sys i ms = some ms' ∧
      ms'.map Mapping.range = (ms.map (Mapping.expandToPages ps)).map Mapping.range ∧
      ∀ m ∈ ms', m.Shows file mem m.map := by
  induction ms generalizing i with
  | nil => exact ⟨[], rfl, rfl, fun _ hm => absurd hm List.not_mem_nil⟩
  | cons m ms ih =>
    obtain ⟨map, hmap, hshows⟩ := h 0 (m.expandToPages ps) rfl
    have hrest : Succeed sys file mem (i + 1) (ms.map (Mapping.expandToPages ps)) := by
      intro j x hx
      have hj := h (j + 1) x hx
      rw [Nat.add_right_comm]
      exact hj
    obtain ⟨ms', hms', hranges, hall⟩ := ih hrest
    have hmmap : m.mmap ps (sys i) = some { m.expandToPages ps with map := map } := by
      unfold Mapping.mmap
      dsimp only
      rw [show sys i = sys (i + 0) from rfl, hmap]
      rfl
    refine ⟨{ m.expandToPages ps with map := map } :: ms', ?_, ?_, ?_⟩
    · simp only [mmapAll]
      rw [hmmap, hms']
      rfl
    · rw [List.map_cons, List.map_cons, List.map_cons, hranges]
      rfl
    · intro x hx
      rcases List.mem_cons.mp hx with rfl | hx
      · exact ⟨hshows.map_pos, hshows.map_le, hshows.mem_eq⟩
      · exact hall x hx

/-- The mappings in place: whole pages, one behind the other, with the file behind them. -/
structure InPlace (ps : Nat) (file : List UInt8) (mem : Nat → UInt8) (secs ms : List Mapping) :
    Prop where
  aligned : ∀ m ∈ ms, ps ∣ m.offset ∧ ps ∣ m.size
  stop_lt : ∀ m ∈ ms, m.stop < 2 ^ 64
  apart : ms.Pairwise fun m m' => m.stop ≤ m'.offset
  covers : ∀ s ∈ secs, ∃ m ∈ ms, m.offset ≤ s.offset ∧ s.stop ≤ m.stop
  shows : ∀ m ∈ ms, m.Shows file mem m.map

/-- The mapping at a place of the list, before and after it was mapped. -/
theorem mem_of_ranges {ms ms' : List Mapping}
    (h : ms'.map Mapping.range = (ms.map (Mapping.expandToPages ps)).map Mapping.range) :
    (∀ m' ∈ ms', ∃ m ∈ ms, m'.range = (m.expandToPages ps).range) ∧
      ∀ m ∈ ms, ∃ m' ∈ ms', m'.range = (m.expandToPages ps).range := by
  rw [List.map_map] at h
  constructor
  · intro m' hm'
    have hmem : m'.range ∈ ms.map (Mapping.range ∘ Mapping.expandToPages ps) :=
      h ▸ List.mem_map_of_mem hm'
    obtain ⟨m, hm, heq⟩ := List.mem_map.mp hmem
    exact ⟨m, hm, heq.symm⟩
  · intro m hm
    have hmem : (m.expandToPages ps).range ∈ ms'.map Mapping.range := by
      rw [h]
      exact List.mem_map_of_mem (f := Mapping.range ∘ Mapping.expandToPages ps) hm
    exact List.mem_map.mp hmem

theorem range_eq_iff {m m' : Mapping} :
    m.range = m'.range ↔ m.offset = m'.offset ∧ m.size = m'.size := Prod.mk.injEq .. ▸ Iff.rfl

/-- Mappings of one range have one end. -/
theorem stop_of_range {m m' : Mapping} (h : m.range = m'.range) : m.stop = m'.stop := by
  obtain ⟨ho, hs⟩ := range_eq_iff.mp h
  unfold Mapping.stop
  rw [ho, hs]

/-- Mappings that are whole pages apart before they are expanded are disjoint afterwards. -/
theorem Coalesced.inPlace (hps : 0 < ps) {secs ms ms' : List Mapping} (h : Coalesced ps secs ms)
    (hranges : ms'.map Mapping.range = (ms.map (Mapping.expandToPages ps)).map Mapping.range)
    (hshows : ∀ m ∈ ms', m.Shows file mem m.map) : InPlace ps file mem secs ms' := by
  obtain ⟨hback, hforth⟩ := mem_of_ranges hranges
  refine ⟨?_, ?_, ?_, ?_, hshows⟩
  · intro m' hm'
    obtain ⟨m, hm, heq⟩ := hback m' hm'
    obtain ⟨ho, hs⟩ := range_eq_iff.mp heq
    rw [ho, hs]
    exact Mapping.expandToPages_aligned hps (h.fits m hm)
  · intro m' hm'
    obtain ⟨m, hm, heq⟩ := hback m' hm'
    rw [stop_of_range heq]
    exact Mapping.expandToPages_stop_lt hps (h.fits m hm)
  · have hexpanded : (ms.map (Mapping.expandToPages ps)).Pairwise
        fun m m' => m.stop ≤ m'.offset := by
      rw [List.pairwise_map]
      refine h.apart.imp_of_mem fun {m m'} hm _ hlt => ?_
      rw [Mapping.expandToPages_stop hps (h.fits m hm), Mapping.expandToPages_offset]
      exact le_pageRoundDown dvd_pageRoundUp (Nat.le_of_lt hlt)
    have hpairs : (ms'.map Mapping.range).Pairwise fun r r' => r.1 + r.2 ≤ r'.1 := by
      rw [hranges, List.pairwise_map]
      exact hexpanded
    exact List.pairwise_map.mp hpairs
  · intro s hs
    obtain ⟨m, hm, hle, hend⟩ := h.covers s hs
    obtain ⟨m', hm', heq⟩ := hforth m hm
    have hfits := h.fits m hm
    refine ⟨m', hm', ?_, ?_⟩
    · rw [(range_eq_iff.mp heq).1, Mapping.expandToPages_offset]
      exact Nat.le_trans pageRoundDown_le hle
    · rw [stop_of_range heq, Mapping.expandToPages_stop hps hfits]
      exact Nat.le_trans hend (le_pageRoundUp hps hfits.stop_lt)

end Mmap

/-! ### Sections in their mappings -/

/-- Some byte of the range is in the page `p`. -/
def Mapping.Touches (ps p : Nat) (m : Mapping) : Prop := m.offset < (p + 1) * ps ∧ p * ps < m.stop

/-- A section as it is pointed into a mapping. -/
def Mapping.inside (s m : Mapping) : Mapping := { s with map := m.map + (s.offset - m.offset) }

section Setup

variable {ps : Nat} {file : List UInt8} {mem : Nat → UInt8} {secs ms : List Mapping}
  {m m' s : Mapping}

/-- A section touches its first page. -/
theorem Mapping.Fits.touches (hps : 0 < ps) (h : s.Fits ps) : s.Touches ps (s.offset / ps) := by
  have hlt := Nat.lt_div_mul_add hps (a := s.offset)
  have hle := Nat.div_mul_le_self s.offset ps
  have hstop := h.offset_lt
  refine ⟨?_, by omega⟩
  rw [Nat.add_mul]
  omega

/-- What contains a section touches the pages that the section does. -/
theorem Mapping.Touches.of_contains {p : Nat} (h : s.Touches ps p) (hle : m.offset ≤ s.offset)
    (hend : s.stop ≤ m.stop) : m.Touches ps p :=
  ⟨Nat.lt_of_le_of_lt hle h.1, Nat.lt_of_lt_of_le h.2 hend⟩

/-- Of two mappings one behind the other, only one has a page. -/
theorem not_touches_behind {p : Nat} (hm : ps ∣ m.offset ∧ ps ∣ m.size)
    (hm' : ps ∣ m'.offset ∧ ps ∣ m'.size) (hbehind : m.stop ≤ m'.offset) (h : m.Touches ps p) :
    ¬ m'.Touches ps p := by
  rintro ⟨hlt', -⟩
  obtain ⟨k, hk⟩ : ps ∣ m.stop := Nat.dvd_add hm.1 hm.2
  obtain ⟨l, hl⟩ := hm'.1
  have hpk : p < k := Nat.lt_of_mul_lt_mul_left (a := ps) (by rw [Nat.mul_comm, ← hk]; exact h.2)
  have hlp : l < p + 1 :=
    Nat.lt_of_mul_lt_mul_left (a := ps) (by rw [← hl, Nat.mul_comm]; exact hlt')
  have hkl : k ≤ l ∨ ps = 0 := by
    rcases Nat.eq_zero_or_pos ps with hps | hps
    · exact .inr hps
    · exact .inl (Nat.le_of_mul_le_mul_left (by rw [← hk, ← hl]; exact hbehind) hps)
  rcases hkl with hkl | rfl
  · omega
  · rw [Nat.zero_mul] at hk
    have hpos := h.2
    omega

/-- A page is in one mapping at most. -/
theorem InPlace.eq_of_touches (h : InPlace ps file mem secs ms) {p : Nat} (hm : m ∈ ms)
    (hm' : m' ∈ ms) (htouch : m.Touches ps p) (htouch' : m'.Touches ps p) : m = m' := by
  obtain ⟨i, hi, rfl⟩ := List.getElem_of_mem hm
  obtain ⟨j, hj, rfl⟩ := List.getElem_of_mem hm'
  have hapart := List.pairwise_iff_getElem.mp h.apart
  rcases Nat.lt_trichotomy i j with hlt | rfl | hlt
  · exact absurd htouch' (not_touches_behind (h.aligned _ hm) (h.aligned _ hm')
      (hapart i j hi hj hlt) htouch)
  · rfl
  · exact absurd htouch (not_touches_behind (h.aligned _ hm') (h.aligned _ hm)
      (hapart j i hj hi hlt) htouch')

/-- A section is in just one mapping, and pointed into that. -/
theorem InPlace.setupSection (hps : 0 < ps) (h : InPlace ps file mem secs ms) (hs : s ∈ secs)
    (hfits : s.Fits ps) :
    ∃ m ∈ ms, m.contains s = true ∧ (∀ m' ∈ ms, m'.contains s = true → m' = m) ∧
      setupSection ms s = some (s.inside m) ∧ (s.inside m).isMapped = true ∧
      ReadsFile file mem (s.inside m) := by
  obtain ⟨m, hm, hle, hend⟩ := h.covers s hs
  have hsstop := hfits.stop_lt
  have hiff : ∀ x ∈ ms, x.contains s = true ↔ x.offset ≤ s.offset ∧ s.stop ≤ x.stop :=
    fun x hx => Mapping.contains_iff (h.stop_lt x hx) (by omega)
  have hunique : ∀ m' ∈ ms, m'.contains s = true → m' = m := by
    intro m' hm' hc
    obtain ⟨hle', hend'⟩ := (hiff m' hm').mp hc
    have htouches := hfits.touches hps
    exact h.eq_of_touches hm' hm (htouches.of_contains hle' hend') (htouches.of_contains hle hend)
  have hshows := h.shows m hm
  have hpos := hshows.map_pos
  have hmap := hshows.map_le
  have hoffset : m.offset + m.size < 2 ^ 64 := h.stop_lt m hm
  have hlen : s.offset + s.size ≤ m.offset + m.size := hend
  have hsize := hfits.size_pos
  have hmapFrom : s.mapFrom m = s.inside m := by
    unfold Mapping.mapFrom Mapping.inside
    congr 1
    omega
  have hmapped : (s.inside m).isMapped = true := by
    unfold Mapping.isMapped Mapping.inside
    rw [decide_eq_true_eq]
    dsimp only
    omega
  have hfind : ms.find? (fun x => x.contains s) = some m := by
    cases hf : ms.find? fun x => x.contains s with
    | none => exact absurd ((hiff m hm).mpr ⟨hle, hend⟩) (List.find?_eq_none.mp hf m hm)
    | some x =>
      have hc := List.find?_some hf
      rw [hunique x (List.mem_of_find?_eq_some hf) hc]
  refine ⟨m, hm, (hiff m hm).mpr ⟨hle, hend⟩, hunique, ?_, hmapped, ?_⟩
  · unfold NovaProva.setupSection
    rw [hfind]
    show (if (s.mapFrom m).isMapped = true then some (s.mapFrom m) else none) = _
    rw [hmapFrom, if_pos hmapped]
  · intro k hk
    have hk' : k < s.size := hk
    have hread := hshows.mem_eq (s.offset - m.offset + k) (by omega)
    have haddr : m.offset + (s.offset - m.offset + k) = s.offset + k := by omega
    rw [haddr, ← Nat.add_assoc] at hread
    exact hread

/-- The sections one after the other, at different indices. -/
theorem setupSections_spec (f : Mapping → Mapping) {l : List (Mapping × Nat)}
    (hf : ∀ p ∈ l, setupSection ms p.1 = some (f p.1)) (hnodup : (l.map Prod.snd).Nodup)
    (sections : List Mapping) :
    ∃ sections', setupSections ms l sections = some sections' ∧
      sections'.length = sections.length ∧
      (∀ i, i ∉ l.map Prod.snd → sections'[i]? = sections[i]?) ∧
      ∀ p ∈ l, p.2 < sections.length → sections'[p.2]? = some (f p.1) := by
  induction l generalizing sections with
  | nil => exact ⟨sections, rfl, rfl, fun _ _ => rfl, fun _ hp => absurd hp List.not_mem_nil⟩
  | cons q l ih =>
    obtain ⟨hq, hnodup⟩ := List.nodup_cons.mp hnodup
    obtain ⟨sections', hsetup, hlen, hother, hmem⟩ :=
      ih (fun p hp => hf p (List.mem_cons_of_mem _ hp)) hnodup (sections.set q.2 (f q.1))
    rw [List.length_set] at hlen hmem
    refine ⟨sections', ?_, hlen, ?_, ?_⟩
    · simp only [setupSections]
      rw [hf q List.mem_cons_self]
      exact hsetup
    · intro i hi
      rw [List.map_cons, List.mem_cons, not_or] at hi
      rw [hother i hi.2, List.getElem?_set_ne (Ne.symm hi.1)]
    · intro p hp hlt
      rcases List.mem_cons.mp hp with rfl | hp
      · rw [hother p.2 hq, List.getElem?_set_self hlt]
      · exact hmem p hp hlt

end Setup

/-! ### The sections that are sorted -/

/-- Two ranges of the file have no byte in common. -/
def Mapping.Apart (s t : Mapping) : Prop := s.stop ≤ t.offset ∨ t.stop ≤ s.offset

section Sorted

variable {qsort : OffsetSort} {sections : List Mapping}

/-- The sections that are sorted are those without a mapping. -/
theorem mem_tsec {p : Mapping × Nat} :
    p ∈ tsec qsort sections ↔ sections[p.2]? = some p.1 ∧ p.1.Unmapped := by
  unfold tsec
  rw [(qsort.perm _).mem_iff, List.mem_filter, List.mem_zipIdx_iff_getElem?, decide_eq_true_eq]

/-- No section is sorted twice. -/
theorem nodup_tsec : ((tsec qsort sections).map Prod.snd).Nodup := by
  have hzip : (sections.zipIdx.map Prod.snd).Nodup := by
    rw [List.zipIdx_map_snd]
    exact List.nodup_range'
  have hfilter : ((sections.zipIdx.filter fun s => s.1.Unmapped).map Prod.snd).Nodup :=
    List.Nodup.sublist (List.filter_sublist.map _) hzip
  exact ((qsort.perm _).map Prod.snd).nodup_iff.mpr hfilter

/-- Once sorted, sections that do not overlap are one behind the other. -/
theorem tsec_behind (qsort : OffsetSort) (hsize : ∀ s ∈ sections, s.Unmapped → 0 < s.size)
    (hapart : sections.Pairwise fun s t => s.Unmapped → t.Unmapped → s.Apart t) :
    ((tsec qsort sections).map Prod.fst).Pairwise fun s t => s.stop ≤ t.offset := by
  have hzip : sections.zipIdx.Pairwise fun p q => p.1.Unmapped → q.1.Unmapped → p.1.Apart q.1 := by
    rw [← List.zipIdx_map_fst 0 sections, List.pairwise_map] at hapart
    exact hapart
  have hfilter : (sections.zipIdx.filter fun s => s.1.Unmapped).Pairwise
      fun p q => p.1.Apart q.1 := by
    rw [List.pairwise_filter]
    refine hzip.imp fun {p q} h hp hq => h (of_decide_eq_true hp) (of_decide_eq_true hq)
  have hsorted : (tsec qsort sections).Pairwise fun p q => p.1.Apart q.1 :=
    (qsort.perm _).symm.pairwise hfilter fun {p q} h => Or.symm h
  rw [List.pairwise_map]
  have hboth := hsorted.and (qsort.sorted (sections.zipIdx.filter fun s => s.1.Unmapped))
  refine hboth.imp_of_mem fun {p q} hp hq hpq => ?_
  obtain ⟨hpsec, hpun⟩ := mem_tsec.mp hp
  obtain ⟨hqsec, hqun⟩ := mem_tsec.mp hq
  have hqsize := hsize q.1 (List.mem_of_getElem? hqsec) hqun
  -- the other way round the second one would begin before the first
  rcases hpq.1 with hle | hle
  · exact hle
  · have hq : q.1.stop = q.1.offset + q.1.size := rfl
    have hoffset := hpq.2
    omega

end Sorted

/-- What `map_sections` leaves behind. -/
structure SectionsMapped (ps : Nat) (file : List UInt8) (mem : Nat → UInt8)
    (sections sections' mappings : List Mapping) : Prop where
  aligned : ∀ m ∈ mappings, ps ∣ m.offset ∧ ps ∣ m.size
  disjoint : mappings.Pairwise Mapping.Apart
  mapped : ∀ (i : Nat) (s : Mapping), sections[i]? = some s → s.Unmapped →
    ∃ m ∈ mappings, m.contains s = true ∧ (∀ m' ∈ mappings, m'.contains s = true → m' = m) ∧
      sections'[i]? = some { s with map := m.map + (s.offset - m.offset) } ∧
      0 < m.map + (s.offset - m.offset) ∧
      ReadsFile file mem { s with map := m.map + (s.offset - m.offset) }
  others : ∀ (i : Nat) (s : Mapping), sections[i]? = some s → ¬ s.Unmapped →
    sections'[i]? = some s
  shared : ∀ s ∈ sections, ∀ t ∈ sections, s.Unmapped → t.Unmapped →
    ∀ p, s.Touches ps p → t.Touches ps p →
      ∀ m ∈ mappings, m.contains s = true → m.contains t = true

/-- **The sections are mapped.**  Of sections that do not overlap, with whatever gaps and in
whatever order, each that is not mapped yet is in just one of the mappings, which are whole pages
and disjoint; it shares that with the sections it shares a page with, and is seen there as it is in
the file. -/
theorem mapSections_maps (qsort : OffsetSort) {ps : Nat} (hps : 0 < ps)
    {sys : Nat → Nat → Nat → Option Nat} {file : List UInt8} {mem : Nat → UInt8}
    {sections : List Mapping}
    (hfits : ∀ s ∈ sections, s.Unmapped → s.offset + s.size + ps < 2 ^ 64)
    (hapart : sections.Pairwise fun s t => s.Unmapped → t.Unmapped → s.Apart t)
    (hsys : Succeed sys file mem 0
      ((coalesce ps ((tsec qsort sections).map Prod.fst)).map (Mapping.expandToPages ps))) :
    ∃ sections' mappings, mapSections qsort ps sys sections = .ok (sections', mappings) ∧
      SectionsMapped ps file mem sections sections' mappings := by
  have hfit : ∀ s ∈ sections, s.Unmapped → s.Fits ps := fun s hs hun =>
    ⟨Nat.pos_of_ne_zero hun.2, hfits s hs hun⟩
  have hfits' : ∀ s ∈ (tsec qsort sections).map Prod.fst, s.Fits ps := by
    intro s hs
    obtain ⟨p, hp, rfl⟩ := List.mem_map.mp hs
    obtain ⟨hsec, hun⟩ := mem_tsec.mp hp
    exact hfit _ (List.mem_of_getElem? hsec) hun
  have hbehind := tsec_behind qsort (fun s hs hun => (hfit s hs hun).size_pos) hapart
  obtain ⟨ms, hmmap, hranges, hshows⟩ := mmapAll_spec hsys
  have hplace := (coalesced_coalesce hps hfits' hbehind).inPlace hps hranges hshows
  -- every section has its mapping, and these choices are what the last loop makes
  have hmem : ∀ i s, sections[i]? = some s → s.Unmapped →
      s ∈ (tsec qsort sections).map Prod.fst := fun i s hs hun =>
    List.mem_map.mpr ⟨(s, i), mem_tsec.mpr ⟨hs, hun⟩, rfl⟩
  have hsetup : ∀ p ∈ tsec qsort sections,
      setupSection ms p.1 = some ((setupSection ms p.1).getD p.1) := by
    intro p hp
    obtain ⟨hsec, hun⟩ := mem_tsec.mp hp
    obtain ⟨m, -, -, -, heq, -⟩ := hplace.setupSection hps (hmem _ _ hsec hun)
      (hfit _ (List.mem_of_getElem? hsec) hun)
    rw [heq]
    rfl
  obtain ⟨sections', hsections, -, hother, hset⟩ :=
    setupSections_spec (fun s => (setupSection ms s).getD s) hsetup nodup_tsec sections
  refine ⟨sections', ms, ?_, hplace.aligned, hplace.apart.imp Or.inl, ?_, ?_, ?_⟩
  · unfold mapSections
    rw [hmmap]
    dsimp only
    rw [hsections]
  · intro i s hs hun
    obtain ⟨m, hm, hc, hunique, heq, hmapped, hreads⟩ :=
      hplace.setupSection hps (hmem i s hs hun) (hfit s (List.mem_of_getElem? hs) hun)
    have hi := hset (s, i) (mem_tsec.mpr ⟨hs, hun⟩) (List.getElem?_eq_some_iff.mp hs).1
    rw [heq] at hi
    exact ⟨m, hm, hc, hunique, hi, Nat.pos_of_ne_zero (of_decide_eq_true hmapped), hreads⟩
  · intro i s hs hun
    rw [hother i ?_, hs]
    intro hmem
    obtain ⟨p, hp, rfl⟩ := List.mem_map.mp hmem
    obtain ⟨hsec, hpun⟩ := mem_tsec.mp hp
    rw [hs] at hsec
    exact hun (Option.some.inj hsec ▸ hpun)
  · intro s hs t ht hsun htun p hsp htp m hm hc
    obtain ⟨i, hi⟩ := List.getElem?_of_mem ht
    obtain ⟨m', hm', hc', -⟩ := hplace.setupSection hps (hmem i t hi htun) (hfit t ht htun)
    have hsstop := (hfit s hs hsun).stop_lt
    have htstop := (hfit t ht htun).stop_lt
    obtain ⟨hle, hend⟩ := (Mapping.contains_iff (hplace.stop_lt m hm) (by omega)).mp hc
    obtain ⟨hle', hend'⟩ := (Mapping.contains_iff (hplace.stop_lt m' hm') (by omega)).mp hc'
    have heq := hplace.eq_of_touches hm hm' (hsp.of_contains hle hend) (htp.of_contains hle' hend')
    rw [heq]
    exact hc'

/-- An insertion sort keeps the sections. -/
theorem perm_offsetInsertionSort (l : List (Mapping × Nat)) :
    (l.insertionSort fun s t => s.1.offset ≤ t.1.offset).Perm l :=
  List.perm_insertionSort _ l

/-- An insertion sort sorts the sections. -/
theorem sorted_offsetInsertionSort (l : List (Mapping × Nat)) :
    (l.insertionSort fun s t => s.1.offset ≤ t.1.offset).Pairwise
      fun s t => s.1.offset ≤ t.1.offset := by
  have : Std.Total fun s t : Mapping × Nat => s.1.offset ≤ t.1.offset :=
    ⟨fun s t => Nat.le_total s.1.offset t.1.offset⟩
  have : IsTrans (Mapping × Nat) fun s t => s.1.offset ≤ t.1.offset :=
    ⟨fun _ _ _ => Nat.le_trans⟩
  exact List.pairwise_insertionSort _ l

/-- A `qsort`. -/
def offsetInsertionSort : OffsetSort where
  sort := List.insertionSort fun s t => s.1.offset ≤ t.1.offset
  perm := perm_offsetInsertionSort
  sorted := sorted_offsetInsertionSort

/-- Three sections, of which the first two share a page. -/
def threeSections : List Mapping :=
  [{ offset := 12300, size := 10 }, { offset := 4000, size := 200 }, { offset := 100, size := 50 }]

/-- A file of four pages. -/
def sevens : List UInt8 := List.replicate 16384 7

/-- Three sections, two of them in neighbouring pages. -/
theorem coalesce_threeSections :
    (coalesce 4096 ((tsec offsetInsertionSort threeSections).map Prod.fst)).map
        (Mapping.expandToPages 4096) =
      [{ offset := 0, size := 8192 }, { offset := 12288, size := 4096 }] := by
  decide +kernel

theorem shows_sevens {m : Mapping} {map : Nat} (hpos : 0 < map) (hmap : map + m.size ≤ 2 ^ 64)
    (hm : m.stop ≤ 16384) : m.Shows sevens (fun _ => 7) map where
  map_pos := hpos
  map_le := hmap
  mem_eq k hk := by
    have hlt : m.offset + k < 16384 := Nat.lt_of_lt_of_le (Nat.add_lt_add_left hk _) hm
    unfold sevens
    rw [List.getD_eq_getElem?_getD, List.getElem?_replicate, if_pos hlt]
    rfl

/-- They are mapped. -/
theorem mapSections_maps_three :
    ∃ sections' mappings,
      mapSections offsetInsertionSort 4096 (fun i _ _ => some (0x7f0000000000 + i * 0x10000))
        threeSections = .ok (sections', mappings) ∧
      SectionsMapped 4096 sevens (fun _ => 7) threeSections sections' mappings := by
  refine mapSections_maps offsetInsertionSort (by decide) ?_ ?_ ?_
  · decide +kernel
  · unfold Mapping.Apart
    decide +kernel
  · rw [coalesce_threeSections]
    intro j m hj
    rcases j with _ | _ | j
    · obtain rfl := Option.some.inj hj
      exact ⟨_, rfl, shows_sevens (by decide) (by decide) (by decide)⟩
    · obtain rfl := Option.some.inj hj
      exact ⟨_, rfl, shows_sevens (by decide) (by decide) (by decide)⟩
    · exact absurd hj.symm (Option.some_ne_none _)

end NovaProva
