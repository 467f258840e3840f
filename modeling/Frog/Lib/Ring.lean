import Mathlib.Data.List.Basic
import Mathlib.Logic.Function.Basic

/-!
# Rings of cells

A list lies in a ring of `n` cells from the position `c` on, and one cell stays spare, so that its
two ends meet only when it is empty.
-/

set_option autoImplicit false

namespace Ring

variable {α : Type} {n c : Nat} {cell cell' : Nat → α} {xs : List α} {x : α}

structure Holds (n : Nat) (cell : Nat → α) (c : Nat) (xs : List α) : Prop where
  start : c < n
  spare : xs.length < n
  cells : ∀ i y, xs[i]? = some y → cell ((c + i) % n) = y

theorem wrap {i : Nat} (hc : c < n) (hi : i < n) :
    (c + i) % n = if c + i < n then c + i else c + i - n := by
  split
  · next h => exact Nat.mod_eq_of_lt h
  · next h => rw [Nat.mod_eq_sub_mod (by omega), Nat.mod_eq_of_lt (by omega)]

/-- Different offsets lead to different cells. -/
theorem wrap_ne {i j : Nat} (hc : c < n) (hi : i < j) (hj : j < n) : (c + i) % n ≠ (c + j) % n := by
  rw [wrap hc (by omega), wrap hc hj]
  split <;> split <;> omega

namespace Holds

theorem nil (hc : c < n) : Holds n cell c [] :=
  ⟨hc, by simp only [List.length_nil]; omega, fun i y h => by simp at h⟩

theorem end_lt (h : Holds n cell c xs) : (c + xs.length) % n < n :=
  Nat.mod_lt _ (Nat.zero_lt_of_lt h.start)

/-- The two ends meet only when there is nothing between them. -/
theorem end_eq_iff (h : Holds n cell c xs) : (c + xs.length) % n = c ↔ xs = [] := by
  constructor
  · intro he
    rw [wrap h.start h.spare] at he
    have := h.start
    have := h.spare
    apply List.eq_nil_of_length_eq_zero
    split at he <;> omega
  · rintro rfl
    exact Nat.mod_eq_of_lt h.start

/-- Cells outside of the ring do not matter. -/
theorem congr (h : Holds n cell c xs) (hc : ∀ i, i < n → cell' i = cell i) :
    Holds n cell' c xs := by
  refine ⟨h.start, h.spare, fun i y hy => ?_⟩
  rw [hc _ (Nat.mod_lt _ (Nat.zero_lt_of_lt h.start))]
  exact h.cells i y hy

/-- An element is put behind the last one. -/
theorem push (h : Holds n cell c xs) (hs : xs.length + 1 < n)
    (hx : cell' ((c + xs.length) % n) = x)
    (ho : ∀ i, i ≠ (c + xs.length) % n → cell' i = cell i) : Holds n cell' c (xs ++ [x]) := by
  refine ⟨h.start, by simpa using hs, fun i y hy => ?_⟩
  have hi : i < xs.length + 1 := by
    have := (List.getElem?_eq_some_iff.mp hy).1
    simpa using this
  rcases Nat.lt_or_eq_of_le (Nat.le_of_lt_succ hi) with hlt | rfl
  · rw [List.getElem?_append_left hlt] at hy
    rw [ho _ (wrap_ne h.start hlt h.spare)]
    exact h.cells i y hy
  · rw [List.getElem?_append_right (Nat.le_refl _), Nat.sub_self] at hy
    cases hy
    exact hx

/-- The first element is taken. -/
theorem pop (h : Holds n cell c (x :: xs)) : cell c = x ∧ Holds n cell ((c + 1) % n) xs := by
  have hlen : xs.length + 1 < n := by simpa using h.spare
  refine ⟨?_, Nat.mod_lt _ (Nat.zero_lt_of_lt hlen), by omega, fun i y hy => ?_⟩
  · have := h.cells 0 x rfl
    rwa [Nat.add_zero, Nat.mod_eq_of_lt h.start] at this
  · have := h.cells (i + 1) y hy
    rwa [Nat.mod_add_mod, Nat.add_assoc, Nat.add_comm 1 i]

end Holds

end Ring
