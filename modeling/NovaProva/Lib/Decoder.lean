import NovaProva.Lib.Bytes

/-!
# Lib — Decoder

Decoders over a byte stream that may not have been written to its end yet.  `d s = none` says
that `s` ends inside the value `d` reads: a blocking reader waits for more of the stream, and a
reader at the end of the stream gives up.

* `Streaming d`: what `d` reads from `s` it also reads from any longer stream.
* `Decodes d bs v`: `d` reads `v` from any stream that starts with `bs`, and consumes `bs`.
* `Refines unread x d`: `x`, which reads from a source of another kind, does what `d` does on the
  bytes that are unread in the source.

They are closed under the monad's operations, so a decoder written as a `do` block has them from
its parts.
-/

/-- A decoder: the value read and the bytes after it, or `none` when the stream is too short. -/
abbrev Decoder (α : Type) := StateT (List UInt8) Option α

namespace Decoder

variable {α β : Type}

/-- Reads `n` bytes. -/
def bytes (n : Nat) : Decoder (List UInt8) := fun s =>
  if n ≤ s.length then some (s.take n, s.drop n) else none

/-- Bytes that were read before the rest. -/
theorem bytes_append {n : Nat} {bs : List UInt8} (h : bs.length ≤ n) (u : List UInt8) :
    bytes n (bs ++ u) = (bytes (n - bs.length) u).map fun q => (bs ++ q.1, q.2) := by
  have hiff : n ≤ (bs ++ u).length ↔ n - bs.length ≤ u.length := by
    rw [List.length_append]
    omega
  by_cases hle : n - bs.length ≤ u.length
  · rw [bytes, bytes, if_pos (hiff.mpr hle), if_pos hle, List.take_append, List.drop_append,
      List.take_of_length_le h, List.drop_of_length_le h]
    rfl
  · rw [bytes, bytes, if_neg (mt hiff.mp hle), if_neg hle]
    rfl

/-- Reads an `n`-byte little-endian number. -/
def le (n : Nat) : Decoder Nat := do
  let bs ← bytes n
  return Bytes.leNat bs

/-- More of the stream does not change what was read. -/
def Streaming (d : Decoder α) : Prop :=
  ∀ ⦃s v r⦄, d s = some (v, r) → ∀ t, d (s ++ t) = some (v, r ++ t)

/-- `bs` is read as `v`, whatever follows. -/
def Decodes (d : Decoder α) (bs : List UInt8) (v : α) : Prop :=
  ∀ t, d (bs ++ t) = some (v, t)

theorem run_bind (d : Decoder α) (f : α → Decoder β) (s : List UInt8) :
    (d >>= f) s = (d s).bind fun p => f p.1 p.2 := rfl

/-- What a sequence of two decoders returned, split at the seam. -/
theorem bind_eq_some {d : Decoder α} {f : α → Decoder β} {s r : List UInt8} {w : β}
    (h : (d >>= f) s = some (w, r)) : ∃ v m, d s = some (v, m) ∧ f v m = some (w, r) := by
  rw [run_bind] at h
  obtain ⟨⟨v, m⟩, h₁, h₂⟩ := Option.bind_eq_some_iff.mp h
  exact ⟨v, m, h₁, h₂⟩

theorem Streaming.pure (v : α) : Streaming (Pure.pure v : Decoder α) := by
  intro s w r h t
  cases h
  rfl

theorem Streaming.bind {d : Decoder α} {f : α → Decoder β} (hd : Streaming d)
    (hf : ∀ v, Streaming (f v)) : Streaming (d >>= f) := by
  intro s w r h t
  obtain ⟨v, m, h₁, h₂⟩ := bind_eq_some h
  rw [run_bind, hd h₁ t]
  exact hf v h₂ t

theorem Streaming.bytes (n : Nat) : Streaming (bytes n) := by
  intro s v r h t
  simp only [Decoder.bytes] at h
  split at h
  case isTrue hn =>
    cases h
    rw [Decoder.bytes, if_pos (by rw [List.length_append]; omega),
      List.take_append_of_le_length hn, List.drop_append_of_le_length hn]
  · cases h

theorem Streaming.le (n : Nat) : Streaming (le n) :=
  .bind (.bytes n) fun _ => .pure _

theorem Decodes.pure (v : α) : Decodes (Pure.pure v : Decoder α) [] v := fun _ => rfl

theorem Decodes.bind {d : Decoder α} {f : α → Decoder β} {bs cs : List UInt8} {v : α} {w : β}
    (hd : Decodes d bs v) (hf : Decodes (f v) cs w) : Decodes (d >>= f) (bs ++ cs) w := by
  intro t
  rw [List.append_assoc, run_bind, hd (cs ++ t)]
  exact hf t

/-- The last decoder of a block, which returns a function of what it read. -/
theorem Decodes.map {d : Decoder α} {bs : List UInt8} {v : α} (f : α → β) (hd : Decodes d bs v) :
    Decodes (do let x ← d; return f x) bs (f v) := by
  have h := hd.bind (f := fun x => Pure.pure (f x)) (Decodes.pure (f v))
  rwa [List.append_nil] at h

theorem Decodes.bytes (bs : List UInt8) : Decodes (bytes bs.length) bs bs := by
  intro t
  rw [Decoder.bytes, if_pos (by simp), List.take_left, List.drop_left]

theorem Decodes.le {k n : Nat} (h : n < 256 ^ k) : Decodes (le k) (Bytes.leBytes k n) n := by
  have hb := Decodes.bytes (Bytes.leBytes k n)
  rw [Bytes.length_leBytes] at hb
  have hm := hb.map Bytes.leNat
  rwa [Bytes.leNat_leBytes_of_lt h] at hm

/-- A streaming decoder reads from the written part of a stream what it would read from the
whole. -/
theorem Streaming.eq_of_decodes {d : Decoder α} (hs : Streaming d) {s r t bs u : List UInt8}
    {v w : α} (h : d s = some (v, r)) (hd : Decodes d bs w) (he : s ++ t = bs ++ u) :
    v = w ∧ r ++ t = u := by
  have h₁ := hs h t
  rw [he, hd u] at h₁
  cases h₁
  exact ⟨rfl, rfl⟩

/-! ### Other sources -/

/-- `x` reads from a source what `d` reads from its unread bytes, and leaves what `d` leaves. -/
def Refines {σ : Type} (unread : σ → List UInt8) (x : StateT σ Option α) (d : Decoder α) : Prop :=
  ∀ s, (x s).map (fun p => (p.1, unread p.2)) = d (unread s)

theorem Refines.pure {σ : Type} {unread : σ → List UInt8} (v : α) :
    Refines unread (Pure.pure v : StateT σ Option α) (Pure.pure v) := fun _ => rfl

theorem Refines.bind {σ : Type} {unread : σ → List UInt8} {x : StateT σ Option α} {d : Decoder α}
    {f : α → StateT σ Option β} {g : α → Decoder β} (hx : Refines unread x d)
    (hf : ∀ v, Refines unread (f v) (g v)) : Refines unread (x >>= f) (d >>= g) := by
  intro s
  have hrun : (x >>= f) s = (x s).bind fun p => f p.1 p.2 := rfl
  rw [run_bind, ← hx s, hrun]
  cases x s with
  | none => rfl
  | some p => exact hf p.1 p.2

/-- What is read from a source that starts with the bytes of a value. -/
theorem Refines.eq_of_decodes {σ : Type} {unread : σ → List UInt8} {x : StateT σ Option α}
    {d : Decoder α} (hx : Refines unread x d) {bs t : List UInt8} {v : α} (hd : Decodes d bs v)
    {s : σ} (hs : unread s = bs ++ t) : ∃ s', x s = some (v, s') ∧ unread s' = t := by
  have hread := hx s
  rw [hs, hd t] at hread
  obtain ⟨⟨w, s'⟩, hsome, heq⟩ := Option.map_eq_some_iff.mp hread
  cases heq
  exact ⟨s', hsome, rfl⟩

end Decoder
