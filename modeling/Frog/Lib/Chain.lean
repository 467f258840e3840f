import Mathlib.Data.List.Nodup
import Mathlib.Logic.Function.Basic

/-!
# Singly linked queues

`Chain next o xs` says that the links starting at `o` run through `xs` and end there. A queue is
changed by one link at its end, at its head or behind the predecessor of what is taken out.
-/

set_option autoImplicit false

variable {α : Type}

def Chain (next : α → Option α) : Option α → List α → Prop
  | o, [] => o = none
  | o, x :: xs => o = some x ∧ Chain next (next x) xs

namespace Chain

variable {next next' : α → Option α} {o : Option α} {x : α} {xs ys : List α}

@[simp] theorem nil_iff : Chain next o [] ↔ o = none := Iff.rfl

@[simp] theorem cons_iff : Chain next o (x :: xs) ↔ o = some x ∧ Chain next (next x) xs := Iff.rfl

/-- The links of elements outside the queue do not matter. -/
theorem congr (h : Chain next o xs) (hn : ∀ x ∈ xs, next' x = next x) : Chain next' o xs := by
  induction xs generalizing o with
  | nil => exact h
  | cons x xs ih =>
    refine ⟨h.1, ?_⟩
    rw [hn x (List.mem_cons_self ..)]
    exact ih h.2 fun y hy => hn y (List.mem_cons_of_mem _ hy)

theorem unique (h : Chain next o xs) (h' : Chain next o ys) : xs = ys := by
  induction xs generalizing o ys with
  | nil =>
    cases ys with
    | nil => rfl
    | cons y ys =>
      have := h'.1
      rw [h] at this
      cases this
  | cons x xs ih =>
    cases ys with
    | nil =>
      have := h.1
      rw [h'] at this
      cases this
    | cons y ys =>
      obtain rfl : x = y := Option.some.inj (h.1.symm.trans h'.1)
      rw [ih h.2 h'.2]

theorem head_eq (h : Chain next o xs) : o = xs.head? := by
  cases xs with
  | nil => exact h
  | cons x xs => exact h.1

theorem eq_nil (h : Chain next none xs) : xs = [] := by
  cases xs with
  | nil => rfl
  | cons x xs => cases h.1

theorem eq_cons (h : Chain next (some x) xs) : ∃ ys, xs = x :: ys ∧ Chain next (next x) ys := by
  cases xs with
  | nil => cases h
  | cons y ys =>
    obtain rfl : x = y := Option.some.inj h.1
    exact ⟨ys, rfl, h.2⟩

/-- What follows the elements of a first part. -/
theorem after (h : Chain next o (xs ++ x :: ys)) : Chain next (next x) ys := by
  induction xs generalizing o with
  | nil => exact h.2
  | cons y xs ih => exact ih h.2

section Changes
variable [DecidableEq α]

/-- One element goes to the end. -/
theorem append {z : α} (h : Chain next o (xs ++ [z])) (hn : (xs ++ [z]).Nodup)
    (hx : x ∉ xs ++ [z]) :
    Chain (Function.update (Function.update next z (some x)) x none) o (xs ++ [z] ++ [x]) := by
  induction xs generalizing o with
  | nil =>
    have hzx : z ≠ x := fun he => hx (by simp [he])
    exact ⟨h.1, by simp [hzx], by simp⟩
  | cons y xs ih =>
    obtain ⟨hy, hn'⟩ := List.nodup_cons.mp hn
    have hyz : y ≠ z := fun he => hy (by simp [he])
    have hyx : y ≠ x := fun he => hx (by simp [he])
    refine ⟨h.1, ?_⟩
    rw [Function.update_of_ne hyx, Function.update_of_ne hyz]
    exact ih h.2 hn' fun hm => hx (List.mem_cons_of_mem _ hm)

theorem single (x : α) : Chain (Function.update next x none) (some x) [x] :=
  ⟨rfl, by simp⟩

/-- An element is taken out behind its predecessor `z`. -/
theorem unlink {z : α} (h : Chain next o (xs ++ z :: x :: ys)) (hn : (xs ++ z :: x :: ys).Nodup) :
    Chain (Function.update (Function.update next z (next x)) x none) o (xs ++ z :: ys) := by
  induction xs generalizing o with
  | nil =>
    obtain ⟨hz, hn'⟩ := List.nodup_cons.mp hn
    obtain ⟨hx, -⟩ := List.nodup_cons.mp hn'
    have hzx : z ≠ x := fun he => hz (by simp [he])
    refine ⟨h.1, ?_⟩
    rw [Function.update_of_ne hzx, Function.update_self]
    refine h.2.2.congr fun y hy => ?_
    have hyx : y ≠ x := fun he => hx (he ▸ hy)
    have hyz : y ≠ z := fun he => hz (List.mem_cons_of_mem _ (he ▸ hy))
    rw [Function.update_of_ne hyx, Function.update_of_ne hyz]
  | cons y xs ih =>
    obtain ⟨hy, hn'⟩ := List.nodup_cons.mp hn
    have hyz : y ≠ z := fun he => hy (by simp [he])
    have hyx : y ≠ x := fun he => hy (by simp [he])
    refine ⟨h.1, ?_⟩
    rw [Function.update_of_ne hyx, Function.update_of_ne hyz]
    exact ih h.2 hn'

end Changes

/-! ## The walks along a queue -/

/-- Follow the links to the last element, at most `n` elements far. -/
def walkEnd (next : α → Option α) : Nat → α → Option α
  | 0, _ => none
  | n + 1, p =>
    match next p with
    | none => some p
    | some q => walkEnd next n q

theorem walkEnd_eq {n : Nat} {p : α} (h : Chain next (some p) xs) (hl : xs.length ≤ n) :
    walkEnd next n p = xs.getLast? := by
  induction n generalizing p xs with
  | zero =>
    obtain ⟨ys, rfl, -⟩ := h.eq_cons
    simp at hl
  | succ n ih =>
    obtain ⟨ys, rfl, hy⟩ := h.eq_cons
    rw [walkEnd]
    cases hp : next p with
    | none =>
      rw [hp] at hy
      rw [hy.eq_nil]
      rfl
    | some q =>
      rw [hp] at hy
      obtain ⟨zs, rfl, -⟩ := hy.eq_cons
      show walkEnd next n q = _
      rw [ih hy (by simpa using hl)]
      simp

variable [DecidableEq α]

/-- The element before `x`, looked for from `o` on with `prev` before it; the links may end
before `x` is met. -/
def walkTo (next : α → Option α) (x : α) : Nat → Option α → Option α → Option (Option α)
  | 0, _, _ => none
  | n + 1, prev, o =>
    match o with
    | none => some prev
    | some p => if p = x then some prev else walkTo next x n (some p) (next p)

theorem walkTo_eq {n : Nat} {prev : Option α} (h : Chain next o (xs ++ x :: ys)) (hx : x ∉ xs)
    (hl : xs.length < n) :
    walkTo next x n prev o = some (xs.getLast?.or prev) := by
  induction n generalizing o xs prev with
  | zero => simp at hl
  | succ n ih =>
    cases xs with
    | nil =>
      rw [h.head_eq]
      simp [walkTo]
    | cons y xs =>
      have hyx : y ≠ x := fun he => hx (by simp [he])
      have h1 : o = some y := h.1
      rw [h1]
      simp only [walkTo, hyx, if_false]
      rw [ih h.2 (fun hm => hx (List.mem_cons_of_mem _ hm)) (by simpa using hl)]
      rw [List.getLast?_cons]
      cases xs.getLast? <;> rfl

end Chain
