import Mathlib.Data.List.Infix

/-! Readers and the bytes they read.  What a reader accepts at the start of any input, and does not
accept when it is cut short, needs no mark to say where it ends: such pieces can be written one after
another, and no two of them begin alike. -/

namespace RaftStore.Lib

variable {α β γ δ : Type*}

/-- The reader finds `piece` at the start of an input whatever comes after it, and makes `result` of
what comes after.  It accepts no beginning of `piece`. -/
structure Delimited (read : List β → Option γ) (piece : List β) (result : List β → γ) : Prop where
  whole : ∀ rest, read (piece ++ rest) = some (result rest)
  cut : ∀ start, start <+: piece → start ≠ piece → read start = none

namespace Delimited

variable {read : List β → Option γ} {piece piece' : List β} {result result' : List β → γ}

theorem exact (h : Delimited read piece result) : read piece = some (result []) := by
  have := h.whole []
  rwa [List.append_nil] at this

theorem congr {read' : List β → Option γ} (h : Delimited read piece result)
    (heq : ∀ b, read' b = read b) : Delimited read' piece result where
  whole rest := (heq _).trans (h.whole rest)
  cut start hs hne := (heq _).trans (h.cut start hs hne)

/-- A reader that reads nothing. -/
theorem nil (result : List β → γ) : Delimited (fun b => some (result b)) [] result where
  whole _ := rfl
  cut _ hs hne := absurd (List.prefix_nil.mp hs) hne

/-- A reader that looks at one element first. -/
theorem cons {x : β} {read' : List β → Option γ} (h : Delimited read piece result)
    (hnil : read' [] = none) (hcons : ∀ rest, read' (x :: rest) = read rest) :
    Delimited read' (x :: piece) result where
  whole rest := (hcons _).trans (h.whole rest)
  cut start hs hne := by
    cases start with
    | nil => exact hnil
    | cons y start =>
      obtain ⟨rfl, hs'⟩ := List.cons_prefix_cons.mp hs
      rw [hcons]
      refine h.cut start hs' fun heq => hne ?_
      rw [heq]

/-- A reader that takes a number of elements. -/
theorem take {n : ℕ} (h : piece.length = n) :
    Delimited (fun b => if b.length < n then none else some (b.take n, b.drop n)) piece
      fun rest => (piece, rest) where
  whole rest := by simp [← h]
  cut start hs hne := by
    have hlt : start.length < n := h ▸ Nat.lt_of_le_of_ne hs.length_le fun heq =>
      hne (hs.eq_of_length heq)
    rw [if_pos hlt]

theorem map (h : Delimited read piece result) (f : γ → δ) :
    Delimited (fun b => (read b).map f) piece fun rest => f (result rest) where
  whole rest := by rw [h.whole, Option.map_some]
  cut start hs hne := by rw [h.cut start hs hne, Option.map_none]

/-- One reader after another: a cut is inside the first piece, or the first piece is whole and the
second one is cut. -/
theorem bind {first : List β → Option (α × List β)} {a : α}
    (h : Delimited first piece fun rest => (a, rest)) (next : α → List β → Option γ)
    (h' : Delimited (next a) piece' result) :
    Delimited (fun b => (first b).bind fun x => next x.1 x.2) (piece ++ piece') result where
  whole rest := by rw [List.append_assoc, h.whole, Option.bind_some, h'.whole]
  cut start hs hne := by
    by_cases hfull : piece <+: start
    · obtain ⟨start', rfl⟩ := hfull
      rw [h.whole, Option.bind_some]
      refine h'.cut start' ((List.prefix_append_right_inj piece).mp hs) fun heq => hne ?_
      rw [heq]
    · have hor := List.prefix_or_prefix_of_prefix hs (List.prefix_append piece piece')
      have hfirst : start <+: piece := hor.resolve_right hfull
      rw [h.cut start hfirst fun heq => hfull (heq ▸ List.prefix_refl _), Option.bind_none]

/-- No piece is the beginning of another, so a piece shows what it was made of. -/
theorem eq_of_begins (h : Delimited read piece result) (h' : Delimited read piece' result')
    (hp : piece <+: piece') : piece = piece' ∧ result [] = result' [] := by
  have heq : piece = piece' := by
    by_contra hne
    have hnone := h'.cut piece hp hne
    rw [h.exact] at hnone
    cases hnone
  refine ⟨heq, Option.some.inj ?_⟩
  rw [← h.exact, ← h'.exact, heq]

end Delimited

/-- An error is no result. -/
theorem exists_error_of_toOption {ε : Type*} {x : Except ε α} (h : x.toOption = none) :
    ∃ e, x = .error e := by
  cases x with
  | error e => exact ⟨e, rfl⟩
  | ok a => cases h

end RaftStore.Lib
