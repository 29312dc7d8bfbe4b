import Mathlib.Data.List.Sort
import Mathlib.Data.Prod.Lex
import Mathlib.Order.BoundedOrder.Basic
import Mathlib.Order.MinMax

/-!
# Lib — Segments

Points of two parts, a major and a minor one, ordered by the major part first.  Consecutive points
of a list bound its `segments`, and a segment goes on up to the major part of its second point only
(`holds`).

* `chunks`: the pieces of a list up to the elements that end one; `spans`: those of several.
* `located_iff_aligned`: when the segments of a list `t` tell of each point between the first and
  the last one of a list `s` where in `s` it lies.
-/

/-! ### Chunks -/

section
variable {γ δ : Type}

/-- The pieces of a list up to each element that is the last of one.  What comes behind the last of
them is in none. -/
def chunks (last : γ → Bool) : List γ → List (List γ)
  | []      => []
  | a :: as => if last a then [a] :: chunks last as else (chunks last as).modifyHead (a :: ·)

/-- A last element ends its chunk. -/
theorem chunks_of_last (last : γ → Bool) {a : γ} (h : last a = true) (as : List γ) :
    chunks last (a :: as) = [a] :: chunks last as := if_pos h

/-- An element that is not a last one begins the next chunk, or goes on with it. -/
theorem chunks_of_not_last (last : γ → Bool) {a : γ} (h : last a = false) (as : List γ) :
    chunks last (a :: as) = (chunks last as).modifyHead (a :: ·) :=
  if_neg (Bool.eq_false_iff.mp h)

variable {last : γ → Bool} {last' : δ → Bool}

/-- A chunk of a list with one more element. -/
theorem mem_chunks_cons {a : γ} {as s : List γ} (h : s ∈ chunks last (a :: as)) :
    s = [a] ∨ s ∈ chunks last as ∨ ∃ c ∈ chunks last as, s = a :: c := by
  rw [chunks] at h
  split at h
  · exact (List.mem_cons.mp h).imp id .inl
  · cases hc : chunks last as with
    | nil =>
        rw [hc] at h
        cases h
    | cons c cs =>
        rw [hc, List.modifyHead_cons] at h
        rcases List.mem_cons.mp h with rfl | h
        · exact .inr (.inr ⟨c, .head _, rfl⟩)
        · exact .inr (.inl (.tail _ h))

/-- No chunk is empty. -/
theorem ne_nil_of_mem_chunks {as s : List γ} (h : s ∈ chunks last as) : s ≠ [] := by
  induction as generalizing s with
  | nil => cases h
  | cons a as ih =>
      rcases mem_chunks_cons h with rfl | h | ⟨c, -, rfl⟩
      · exact List.cons_ne_nil a []
      · exact ih h
      · exact List.cons_ne_nil a c

/-- Elements of a piece are elements of the list. -/
theorem subset_of_mem_chunks {as s : List γ} (h : s ∈ chunks last as) : s ⊆ as := by
  induction as generalizing s with
  | nil => cases h
  | cons a as ih =>
      rcases mem_chunks_cons h with rfl | h | ⟨c, hc, rfl⟩
      · simp
      · exact List.subset_cons_of_subset a (ih h)
      · exact List.cons_subset_cons a (ih hc)

/-- The chunks of an image. -/
theorem chunks_map (g : δ → γ) (bs : List δ) :
    chunks last (bs.map g) = (chunks (fun b => last (g b)) bs).map (List.map g) := by
  induction bs with
  | nil => rfl
  | cons b bs ih =>
      rw [List.map_cons, chunks, chunks, ih]
      split
      · rfl
      · cases chunks (fun b => last (g b)) bs <;> rfl

/-- The pieces of more than one element. -/
def spans (last : γ → Bool) (as : List γ) : List (List γ) :=
  (chunks last as).filter fun s => 1 < s.length

/-- The spans of an image. -/
theorem spans_map (g : δ → γ) (bs : List δ) :
    spans last (bs.map g) = (spans (fun b => last (g b)) bs).map (List.map g) := by
  rw [spans, spans, chunks_map, List.filter_map]
  congr 2
  funext s
  simp

/-- A span has two elements at least. -/
theorem two_le_of_mem_spans {as s : List γ} (h : s ∈ spans last as) : 2 ≤ s.length := by
  have hlen := (List.mem_filter.mp h).2
  exact decide_eq_true_iff.mp hlen

/-- Lists whose elements correspond, and end pieces together, have corresponding pieces. -/
theorem forall₂_chunks {R : γ → δ → Prop} (hR : ∀ a b, R a b → last a = last' b)
    {as : List γ} {bs : List δ} (h : List.Forall₂ R as bs) :
    List.Forall₂ (List.Forall₂ R) (chunks last as) (chunks last' bs) := by
  induction h with
  | nil => exact .nil
  | @cons a b as bs hab _ ih =>
      rw [chunks, chunks, hR a b hab]
      split
      · exact .cons (.cons hab .nil) ih
      · generalize chunks last as = cs at ih ⊢
        generalize chunks last' bs = ds at ih ⊢
        cases ih with
        | nil => exact .nil
        | cons hc hcs => exact .cons (.cons hab hc) hcs

/-- Lists that are related element by element are related span by span. -/
theorem forall₂_spans {R : γ → δ → Prop} (hR : ∀ a b, R a b → last a = last' b)
    {as : List γ} {bs : List δ} (h : List.Forall₂ R as bs) :
    List.Forall₂ (List.Forall₂ R) (spans last as) (spans last' bs) := by
  rw [spans, spans]
  have hchunks := forall₂_chunks hR h
  generalize chunks last as = cs at hchunks ⊢
  generalize chunks last' bs = ds at hchunks ⊢
  induction hchunks with
  | nil => exact .nil
  | @cons c d cs ds hcd _ ih =>
      rw [List.filter_cons, List.filter_cons, hcd.length_eq]
      split
      · exact .cons hcd ih
      · exact ih

/-- Relations that agree on lists whose elements correspond. -/
theorem forall₂_congr_of_forall₂ {R P Q : γ → δ → Prop} {as : List γ} {bs : List δ}
    (hR : List.Forall₂ R as bs) (h : ∀ a ∈ as, ∀ b, R a b → (P a b ↔ Q a b)) :
    List.Forall₂ P as bs ↔ List.Forall₂ Q as bs := by
  induction hR with
  | nil => exact iff_of_true .nil .nil
  | @cons a b as bs hab _ ih =>
      rw [List.forall₂_cons, List.forall₂_cons, h a (.head _) b hab,
        ih fun a' ha' => h a' (.tail _ ha')]

end

/-! ### Consecutive points -/

section
variable {γ : Type}

/-- Each element of a list with the next one. -/
def segments (s : List γ) : List (γ × γ) := s.zip s.tail

@[simp] theorem segments_cons_cons (a b : γ) (s : List γ) :
    segments (a :: b :: s) = (a, b) :: segments (b :: s) := rfl

@[simp] theorem segments_singleton (a : γ) : segments [a] = [] := rfl

/-- The segments of an image. -/
theorem segments_map {δ : Type} (g : γ → δ) (s : List γ) :
    segments (s.map g) = (segments s).map (Prod.map g g) := by
  rw [segments, segments, ← List.map_tail, List.zip_map]

/-- They start at all elements but the last. -/
theorem map_fst_segments (s : List γ) (a : γ) : (segments (s ++ [a])).map Prod.fst = s := by
  induction s with
  | nil => rfl
  | cons b s ih =>
      cases s with
      | nil => rfl
      | cons c s => exact congrArg (b :: ·) ih

/-- What holds of every segment makes a chain. -/
theorem isChain_of_segments {R : γ → γ → Prop} {s : List γ}
    (h : ∀ q ∈ segments s, R q.1 q.2) : s.IsChain R := by
  induction s with
  | nil => exact .nil
  | cons a s ih =>
      cases s with
      | nil => exact .singleton a
      | cons b s =>
          have hab : R a b := h (a, b) (.head _)
          exact .cons_cons hab (ih fun q hq => h q (.tail _ hq))

end

/-! ### Points in two parts -/

section
variable {α β : Type} [LinearOrder α] [LinearOrder β]

/-- A segment holds the points from its first one on whose major part is below that of its second
one. -/
def holds (x : α ×ₗ β) (q : (α ×ₗ β) × (α ×ₗ β)) : Bool :=
  decide (q.1 ≤ x ∧ (ofLex x).1 < (ofLex q.2).1)

/-- A segment holds what is between its start and the first coordinate of its end. -/
theorem holds_iff {x : α ×ₗ β} {q : (α ×ₗ β) × (α ×ₗ β)} :
    holds x q = true ↔ q.1 ≤ x ∧ (ofLex x).1 < (ofLex q.2).1 := decide_eq_true_iff

/-- `y` is the greatest of `s` that is not above `x`. -/
def IsFloor (s : List (α ×ₗ β)) (x y : α ×ₗ β) : Prop :=
  y ∈ s ∧ y ≤ x ∧ ∀ z ∈ s, z ≤ x → z ≤ y

/-- Exactly one of the segments of `t` holds `x`, and it begins at the greatest of `s` that is not
above `x`. -/
def Located (s t : List (α ×ₗ β)) (x : α ×ₗ β) : Prop :=
  ∃ q, (segments t).filter (holds x) = [q] ∧ IsFloor s x q.1

/-- No segment holds what is before all of them. -/
theorem filter_holds_eq_nil {x : α ×ₗ β} {t : List (α ×ₗ β)} {e : α ×ₗ β}
    (h : ∀ y ∈ t, x < y) : (segments (t ++ [e])).filter (holds x) = [] := by
  rw [List.filter_eq_nil_iff]
  intro q hq hx
  have hmem : q.1 ∈ t := map_fst_segments t e ▸ List.mem_map_of_mem hq
  exact absurd (holds_iff.mp hx).1 (not_le.mpr (h q.1 hmem))

/-- In a list that ascends, behind a point that is below `x` the same segments hold it. -/
theorem located_cons {y z x : α ×ₗ β} {s t : List (α ×ₗ β)} (hyz : y < z) (hzx : z ≤ x) :
    Located (y :: z :: s) (y :: z :: t) x ↔ Located (z :: s) (z :: t) x := by
  have hle : ¬ (ofLex x).1 < (ofLex z).1 := not_lt.mpr (Prod.Lex.monotone_fst z x hzx)
  have hhead : holds x (y, z) = false :=
    Bool.eq_false_iff.mpr fun h => hle (holds_iff.mp h).2
  rw [Located, Located, segments_cons_cons, List.filter_cons, if_neg (by simp [hhead])]
  refine exists_congr fun q => and_congr_right fun _ => ⟨?_, ?_⟩
  · rintro ⟨hmem, hle, hmax⟩
    have hzq := hmax z (by simp) hzx
    refine ⟨?_, hle, fun w hw => hmax w (.tail _ hw)⟩
    rcases List.mem_cons.mp hmem with heq | hmem
    · exact absurd (heq ▸ hyz) (not_lt.mpr hzq)
    · exact hmem
  · rintro ⟨hmem, hle, hmax⟩
    have hzq := hmax z (.head _) hzx
    refine ⟨.tail _ hmem, hle, fun w hw hwx => ?_⟩
    rcases List.mem_cons.mp hw with rfl | hw
    · exact hyz.le.trans hzq
    · exact hmax w hw hwx

/-! ### Telling points apart -/

variable {y e f x : α ×ₗ β} {ys cs : List (α ×ₗ β)}

/-- Lists of as many points are the same where the segments of the one tell the points of the other
apart. -/
theorem eq_of_located (hs : (ys ++ [e]).Pairwise (· < ·)) (hlen : cs.length = ys.length)
    (h : ∀ y ∈ ys, Located (ys ++ [e]) (cs ++ [f]) y) : cs = ys := by
  have hfound : ∀ y ∈ ys, ∃ q, (segments (cs ++ [f])).filter (holds y) = [q] ∧ q.1 = y := by
    intro y hy
    obtain ⟨q, hq, -, hle, hmax⟩ := h y hy
    exact ⟨q, hq, le_antisymm hle (hmax y (List.mem_append_left [e] hy) le_rfl)⟩
  have hmem : ∀ q ∈ segments (cs ++ [f]), q.1 ∈ cs := by
    intro q hq
    rw [← map_fst_segments cs f]
    exact List.mem_map_of_mem hq
  have hys : ys.Pairwise (· < ·) := (List.pairwise_append.mp hs).1
  have hsub : ys ⊆ cs := by
    intro y hy
    obtain ⟨q, hq, rfl⟩ := hfound y hy
    exact hmem q (List.mem_of_mem_filter (hq ▸ List.mem_singleton_self q))
  have hperm : ys.Perm cs :=
    (List.subperm_of_subset (hys.imp ne_of_lt) hsub).perm_of_length_le hlen.le
  -- Each segment holds its own first point, so that the major parts ascend.
  have hheld : ∀ q ∈ segments (cs ++ [f]), (ofLex q.1).1 < (ofLex q.2).1 := by
    intro q hq
    obtain ⟨q', hq', heq⟩ := hfound q.1 (hperm.mem_iff.mpr (hmem q hq))
    have hmem' := List.mem_filter.mp (hq' ▸ List.mem_singleton_self q')
    have hnodup : ((segments (cs ++ [f])).map Prod.fst).Nodup := by
      rw [map_fst_segments]
      exact hperm.nodup_iff.mp (hys.imp ne_of_lt)
    have hsame : q' = q := List.inj_on_of_nodup_map hnodup hmem'.1 hq heq
    exact (holds_iff.mp (hsame ▸ hmem'.2)).2
  have hchain : (cs ++ [f]).IsChain (fun a b : α ×ₗ β => (ofLex a).1 < (ofLex b).1) :=
    isChain_of_segments hheld
  have hcs : cs.Pairwise (· < ·) := by
    have htrans : Trans (fun a b : α ×ₗ β => (ofLex a).1 < (ofLex b).1)
        (fun a b : α ×ₗ β => (ofLex a).1 < (ofLex b).1)
        (fun a b : α ×ₗ β => (ofLex a).1 < (ofLex b).1) := ⟨lt_trans⟩
    have hpair := (List.pairwise_append.mp (List.isChain_iff_pairwise.mp hchain)).1
    exact hpair.imp fun hlt => Prod.Lex.lt_iff.mpr (.inl hlt)
  exact (hperm.eq_of_pairwise' (hys.imp le_of_lt) (hcs.imp le_of_lt)).symm

variable [OrderBot β] {m : β}

/-- A segment up to `f` holds what it would if it went on up to `e`. -/
def EndsFor (e f : α ×ₗ β) : Prop :=
  (ofLex e).1 < (ofLex f).1 ∨ ((ofLex e).2 = ⊥ ∧ (ofLex e).1 ≤ (ofLex f).1)

/-- An end that stands for another is not before it. -/
theorem fst_lt_of_endsFor (h : EndsFor e f) (hx : x < e) : (ofLex x).1 < (ofLex f).1 := by
  rcases h with h | ⟨hbot, hle⟩
  · exact (Prod.Lex.monotone_fst x e hx.le).trans_lt h
  · rcases Prod.Lex.lt_iff.mp hx with hlt | ⟨-, hlt⟩
    · exact hlt.trans_le hle
    · exact absurd (hbot ▸ hlt) not_lt_bot

/-- Points with a minor part below `m` are enough to tell whether it does. -/
theorem endsFor_of_fst_lt (hye : y < e) (hm : (ofLex y).2 < m)
    (h : ∀ x, (ofLex x).2 < m → y ≤ x → x < e → (ofLex x).1 < (ofLex f).1) : EndsFor e f := by
  have hbelow : ∀ a, toLex (a, ⊥) < e → a < (ofLex f).1 := by
    intro a ha
    have hmax : (ofLex (max y (toLex (a, ⊥)))).2 < m := by
      rcases max_choice y (toLex (a, ⊥)) with heq | heq
      · rw [heq]
        exact hm
      · rw [heq]
        exact bot_le.trans_lt hm
    have hlt := h _ hmax (le_max_left _ _) (max_lt hye ha)
    exact (Prod.Lex.monotone_fst _ _ (le_max_right y (toLex (a, ⊥)))).trans_lt hlt
  by_cases hbot : (ofLex e).2 = ⊥
  · refine .inr ⟨hbot, not_lt.mp fun hlt => ?_⟩
    exact lt_irrefl _ (hbelow _ (Prod.Lex.lt_iff.mpr (.inl hlt)))
  · exact .inl (hbelow _ (Prod.Lex.lt_iff.mpr (.inr ⟨rfl, bot_lt_iff_ne_bot.mpr hbot⟩)))

/-- **The segments hold each point once** if the points in between are at a bottom. -/
theorem located_of_endsFor (hs : (y :: (ys ++ [e])).Pairwise (· < ·))
    (hbot : ∀ z ∈ ys, (ofLex z).2 = ⊥) (he : EndsFor e f) (hyx : y ≤ x) (hxe : x < e) :
    Located (y :: (ys ++ [e])) (y :: (ys ++ [f])) x := by
  induction ys generalizing y with
  | nil =>
      have hx : holds x (y, f) = true := holds_iff.mpr ⟨hyx, fst_lt_of_endsFor he hxe⟩
      refine ⟨(y, f), by simp [hx], by simp, hyx, fun z hz hzx => ?_⟩
      rcases List.mem_cons.mp hz with rfl | hz
      · exact le_rfl
      · rw [List.nil_append, List.mem_singleton] at hz
        exact absurd (hz ▸ hzx) (not_le.mpr hxe)
  | cons z ys ih =>
      obtain ⟨hy, hrest⟩ := List.pairwise_cons.mp hs
      have hyz : y < z := hy z (by simp)
      by_cases hxz : x < z
      · have hz : EndsFor z z := .inr ⟨hbot z (.head _), le_rfl⟩
        have hx : holds x (y, z) = true := holds_iff.mpr ⟨hyx, fst_lt_of_endsFor hz hxz⟩
        have habove : ∀ w ∈ z :: (ys ++ [e]), x < w := by
          intro w hw
          rcases List.mem_cons.mp hw with rfl | hw
          · exact hxz
          · exact hxz.trans ((List.pairwise_cons.mp hrest).1 w hw)
        have hnil : (segments (z :: (ys ++ [f]))).filter (holds x) = [] :=
          filter_holds_eq_nil (t := z :: ys) fun w hw =>
            habove w (List.mem_append_left [e] hw)
        refine ⟨(y, z), ?_, by simp, hyx, fun w hw hwx => ?_⟩
        · rw [List.cons_append, segments_cons_cons, List.filter_cons, if_pos hx, hnil]
        · rcases List.mem_cons.mp hw with rfl | hw
          · exact le_rfl
          · exact absurd hwx (not_le.mpr (habove w hw))
      · have htail := ih hrest (fun w hw => hbot w (.tail _ hw)) (not_lt.mp hxz)
        exact (located_cons hyz (not_lt.mp hxz)).mpr htail

/-- The points in between are at a bottom if the segments hold each point once. -/
theorem endsFor_of_located (hs : (y :: (ys ++ [e])).Pairwise (· < ·))
    (hm : ∀ z ∈ y :: ys, (ofLex z).2 < m)
    (h : ∀ x, (ofLex x).2 < m → y ≤ x → x < e →
      Located (y :: (ys ++ [e])) (y :: (ys ++ [f])) x) :
    (∀ z ∈ ys, (ofLex z).2 = ⊥) ∧ EndsFor e f := by
  induction ys generalizing y with
  | nil =>
      obtain ⟨hy, -⟩ := List.pairwise_cons.mp hs
      refine ⟨fun z hz => absurd hz List.not_mem_nil, ?_⟩
      refine endsFor_of_fst_lt (hy e (by simp)) (hm y (.head _)) fun x hx hyx hxe => ?_
      obtain ⟨q, hq, -⟩ := h x hx hyx hxe
      have hmem : q ∈ (segments [y, f]).filter (holds x) := hq ▸ .head _
      obtain ⟨hseg, hhold⟩ := List.mem_filter.mp hmem
      rw [List.mem_singleton.mp hseg] at hhold
      exact (holds_iff.mp hhold).2
  | cons z ys ih =>
      obtain ⟨hy, hrest⟩ := List.pairwise_cons.mp hs
      have hyz : y < z := hy z (by simp)
      have hze : z < e := (List.pairwise_cons.mp hrest).1 e (by simp)
      have hends : EndsFor z z := by
        refine endsFor_of_fst_lt hyz (hm y (.head _)) fun x hx hyx hxz => ?_
        obtain ⟨q, hq, -⟩ := h x hx hyx (hxz.trans hze)
        have hnil : (segments (z :: (ys ++ [f]))).filter (holds x) = [] := by
          refine filter_holds_eq_nil (t := z :: ys) fun w hw => ?_
          rcases List.mem_cons.mp hw with rfl | hw
          · exact hxz
          · exact hxz.trans ((List.pairwise_cons.mp hrest).1 w (List.mem_append_left [e] hw))
        rw [List.cons_append, segments_cons_cons, List.filter_cons, hnil] at hq
        split at hq
        next hhold => exact (holds_iff.mp hhold).2
        next => cases hq
      have htail := ih hrest (fun w hw => hm w (.tail _ hw)) fun x hx hzx hxe =>
        (located_cons hyz hzx).mp (h x hx (hyz.le.trans hzx) hxe)
      refine ⟨fun w hw => ?_, htail.2⟩
      rcases List.mem_cons.mp hw with rfl | hw
      · exact hends.elim (fun hlt => absurd hlt (lt_irrefl _)) And.left
      · exact htail.1 w hw

/-- The points of `t` are those of `s`, up to the last one of either; but for the first one they
are where an instruction of one operation would begin; and the last ones end for each other. -/
structure Aligned (s t : List (α ×ₗ β)) : Prop where
  dropLast_eq : t.dropLast = s.dropLast
  bot : ∀ z ∈ s.dropLast.tail, (ofLex z).2 = ⊥
  endsFor : ∀ e ∈ s.getLast?, ∀ f ∈ t.getLast?, EndsFor e f

/-- Points that are aligned are the same but for the last. -/
theorem aligned_concat_iff : Aligned (ys ++ [e]) (cs ++ [f]) ↔
    cs = ys ∧ (∀ z ∈ ys.tail, (ofLex z).2 = ⊥) ∧ EndsFor e f := by
  constructor
  · rintro ⟨heq, hbot, hends⟩
    rw [List.dropLast_concat, List.dropLast_concat] at heq
    rw [List.dropLast_concat] at hbot
    exact ⟨heq, hbot, hends e List.getLast?_concat f List.getLast?_concat⟩
  · rintro ⟨rfl, hbot, hends⟩
    refine ⟨by rw [List.dropLast_concat, List.dropLast_concat], ?_, ?_⟩
    · rw [List.dropLast_concat]
      exact hbot
    · intro e' he' f' hf'
      rw [List.getLast?_concat] at he' hf'
      cases he'
      cases hf'
      exact hends

/-- A list is aligned with itself if every point behind the first is at a bottom. -/
theorem aligned_self_iff {s : List (α ×ₗ β)} (htwo : 2 ≤ s.length) :
    Aligned s s ↔ ∀ z ∈ s.tail, (ofLex z).2 = ⊥ := by
  obtain ⟨ys, e, rfl⟩ := (List.eq_nil_or_concat' s).resolve_left (by rintro rfl; simp at htwo)
  have hne : ys ≠ [] := by
    rintro rfl
    simp at htwo
  have hends : EndsFor e e ↔ (ofLex e).2 = ⊥ := by simp [EndsFor]
  rw [aligned_concat_iff, hends, List.tail_append_of_ne_nil hne, List.forall_mem_append,
    List.forall_mem_singleton]
  exact and_iff_right rfl

/-- **The segments of `t` tell apart the points** between the first and the last of `s` exactly if
`t` is aligned with `s`. -/
theorem located_iff_aligned {s t : List (α ×ₗ β)} (htwo : 2 ≤ s.length)
    (hlen : t.length = s.length) (hs : s.Pairwise (· < ·)) (hm : ∀ y ∈ s, (ofLex y).2 < m) :
    (∀ x, (ofLex x).2 < m → (∀ y ∈ s.head?, y ≤ x) → (∀ e ∈ s.getLast?, x < e) →
      Located s t x) ↔ Aligned s t := by
  obtain ⟨ys', e, rfl⟩ := (List.eq_nil_or_concat' s).resolve_left (by rintro rfl; simp at htwo)
  obtain ⟨cs, f, rfl⟩ := (List.eq_nil_or_concat' t).resolve_left (by rintro rfl; simp at hlen)
  rw [aligned_concat_iff]
  cases ys' with
  | nil => simp at htwo
  | cons y ys =>
      have hlen' : cs.length = (y :: ys).length := by simpa using hlen
      have hm' : ∀ z ∈ y :: ys, (ofLex z).2 < m := fun z hz => hm z (List.mem_append_left [e] hz)
      have hlast : (y :: ys ++ [e]).getLast? = some e := List.getLast?_concat
      constructor
      · intro h
        have hloc : ∀ x, (ofLex x).2 < m → y ≤ x → x < e →
            Located (y :: ys ++ [e]) (cs ++ [f]) x := by
          intro x hx hyx hxe
          refine h x hx ?_ ?_
          · rintro _ ⟨⟩
            exact hyx
          · rw [hlast]
            rintro _ ⟨⟩
            exact hxe
        have hys : ∀ z ∈ y :: ys, y ≤ z ∧ z < e := by
          intro z hz
          have hsorted := List.pairwise_append.mp hs
          refine ⟨?_, hsorted.2.2 z hz e (.head _)⟩
          rcases List.mem_cons.mp hz with rfl | hz
          · exact le_rfl
          · exact ((List.pairwise_cons.mp hsorted.1).1 z hz).le
        have heq : cs = y :: ys :=
          eq_of_located hs hlen' fun z hz => hloc z (hm' z hz) (hys z hz).1 (hys z hz).2
        subst heq
        exact ⟨rfl, endsFor_of_located hs hm' hloc⟩
      · rintro ⟨rfl, hbot, hends⟩ x hx hyx hxe
        exact located_of_endsFor hs hbot hends (hyx y rfl) (hxe e hlast)

end
