import Frog.Lib.Ring
import Mathlib.Data.Nat.Bitwise

/-!
# Queues with a mask

Records of `step` cells lie in a buffer of `size` cells, a power of two. `head` and `tail` are
advanced under the mask `size - 1`, and a record is dropped when it would make them meet.
-/

set_option autoImplicit false

structure MaskQueue (α : Type) where
  head : Nat
  tail : Nat
  buf : Nat → α

namespace MaskQueue

variable {α : Type}

/-- A queue is written at its head. -/
def put (size step : Nat) (x : α) (q : MaskQueue α) : MaskQueue α :=
  let q' : MaskQueue α := { q with buf := Function.update q.buf q.head x }
  let head := (q.head + step) &&& (size - 1)
  if head ≠ q.tail then { q' with head := head } else q'

def get (size step : Nat) (q : MaskQueue α) : α × MaskQueue α :=
  (q.buf q.tail, { q with tail := (q.tail + step) &&& (size - 1) })

def isEmpty (q : MaskQueue α) : Bool := q.head = q.tail

/-- A buffer of `cells` records, and what is in it. -/
structure Holds (cells step : Nat) (q : MaskQueue α) (xs : List α) : Prop where
  step_pos : 0 < step
  two_pow : ∃ k, step * cells = 2 ^ k
  tail : ∃ c, q.tail = step * c ∧ q.head = step * ((c + xs.length) % cells) ∧
    Ring.Holds cells (fun i => q.buf (step * i)) c xs

variable {cells step : Nat} {q : MaskQueue α} {xs : List α} {x : α}

/-- Under the mask an offset goes around. -/
theorem mask_eq (h : ∃ k, step * cells = 2 ^ k) (i : Nat) :
    (step * i + step) &&& (step * cells - 1) = step * ((i + 1) % cells) := by
  obtain ⟨k, hk⟩ := h
  rw [hk, Nat.and_two_pow_sub_one_eq_mod, ← hk, show step * i + step = step * (i + 1) by
    rw [Nat.mul_add, Nat.mul_one], Nat.mul_mod_mul_left]

theorem Holds.init {buf : Nat → α} (hs : 0 < step) (hc : 0 < cells)
    (hk : ∃ k, step * cells = 2 ^ k) : Holds cells step ⟨0, 0, buf⟩ [] :=
  ⟨hs, hk, 0, rfl, by simp, .nil hc⟩

theorem Holds.length_lt (h : Holds cells step q xs) : xs.length < cells := by
  obtain ⟨c, -, -, hr⟩ := h.tail
  exact hr.spare

theorem Holds.isEmpty_iff (h : Holds cells step q xs) : q.isEmpty = true ↔ xs = [] := by
  obtain ⟨c, ht, hh, hr⟩ := h.tail
  rw [isEmpty, decide_eq_true_eq, hh, ht, Nat.mul_right_inj (Nat.ne_of_gt h.step_pos)]
  exact hr.end_eq_iff

/-- A record is put behind the others if a cell stays spare, and dropped else. -/
theorem Holds.put (h : Holds cells step q xs) : Holds cells step (q.put (step * cells) step x)
    (if xs.length + 1 < cells then xs ++ [x] else xs) := by
  obtain ⟨c, ht, hh, hr⟩ := h.tail
  have hpos := h.step_pos
  have hspare := hr.spare
  have hnext : (q.head + step) &&& (step * cells - 1) =
      step * ((c + xs.length + 1) % cells) := by
    rw [hh, mask_eq h.two_pow, Nat.mod_add_mod]
  have hcell : Function.update q.buf q.head x (step * ((c + xs.length) % cells)) = x := by
    rw [hh]
    exact Function.update_self ..
  have hother : ∀ i, i ≠ (c + xs.length) % cells →
      Function.update q.buf q.head x (step * i) = q.buf (step * i) := by
    intro i hi
    refine Function.update_of_ne ?_ ..
    rw [hh]
    exact fun he => hi (Nat.eq_of_mul_eq_mul_left hpos he)
  have hfull : step * ((c + xs.length + 1) % cells) = q.tail ↔ xs.length + 1 = cells := by
    rw [ht, Nat.mul_right_inj (Nat.ne_of_gt hpos)]
    have hstart := hr.start
    by_cases hlt : xs.length + 1 < cells
    · rw [Nat.add_assoc, Ring.wrap hstart hlt]
      split <;> omega
    · have hmod : (c + xs.length + 1) % cells = c := by
        rw [show c + xs.length + 1 = c + cells by omega, Nat.add_mod_right,
          Nat.mod_eq_of_lt hstart]
      exact ⟨fun _ => by omega, fun _ => hmod⟩
  simp only [MaskQueue.put, hnext]
  by_cases hlt : xs.length + 1 < cells
  · rw [if_pos hlt, if_pos (fun he => Nat.ne_of_lt hlt (hfull.mp he))]
    refine ⟨hpos, h.two_pow, c, ht, ?_, hr.push hlt hcell hother⟩
    rw [List.length_append, List.length_singleton, Nat.add_assoc]
  · rw [if_neg hlt, if_neg (not_not.mpr (hfull.mpr (by omega)))]
    refine ⟨hpos, h.two_pow, c, ht, hh, hr.start, hspare, fun i y hy => ?_⟩
    have hi : i < xs.length := (List.getElem?_eq_some_iff.mp hy).1
    rw [← hr.cells i y hy]
    exact hother _ (Ring.wrap_ne hr.start hi hspare)

/-- The first record is taken. -/
theorem Holds.get (h : Holds cells step q (x :: xs)) :
    (q.get (step * cells) step).1 = x ∧ Holds cells step (q.get (step * cells) step).2 xs := by
  obtain ⟨c, ht, hh, hr⟩ := h.tail
  obtain ⟨hx, hrest⟩ := hr.pop
  refine ⟨?_, h.step_pos, h.two_pow, (c + 1) % cells, ?_, ?_, hrest⟩
  · rw [MaskQueue.get, ht]
    exact hx
  · rw [MaskQueue.get, ht]
    exact mask_eq h.two_pow c
  · rw [Nat.mod_add_mod, Nat.add_assoc, Nat.add_comm 1]
    exact hh

end MaskQueue
