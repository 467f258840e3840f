import Mathlib

/-!
# First hits of bounded scans

`List.findSome?` over `List.range n` is the loop that tries `0, 1, …, n - 1` and leaves at
the first answer.
-/

namespace Scan

set_option autoImplicit false

variable {β : Type}

theorem findSome_range_none {n : Nat} {f : Nat → Option β} :
    (List.range n).findSome? f = none ↔ ∀ i, i < n → f i = none := by
  simp [List.findSome?_eq_none_iff]

theorem findSome_range_succ (n : Nat) (f : Nat → Option β) :
    (List.range (n + 1)).findSome? f = ((List.range n).findSome? f).or (f n) := by
  rw [List.range_succ, List.findSome?_append, List.findSome?_cons, List.findSome?_nil]
  cases f n <;> rfl

theorem findSome_range_some {n : Nat} {f : Nat → Option β} {b : β} :
    (List.range n).findSome? f = some b ↔
      ∃ i, i < n ∧ f i = some b ∧ ∀ j, j < i → f j = none := by
  induction n with
  | zero => simp
  | succ n ih =>
    rw [findSome_range_succ, Option.or_eq_some_iff, ih, findSome_range_none]
    constructor
    · rintro (⟨i, hi, hf, hlt⟩ | ⟨hnone, hf⟩)
      · exact ⟨i, by omega, hf, hlt⟩
      · exact ⟨n, by omega, hf, hnone⟩
    · rintro ⟨i, hi, hf, hlt⟩
      by_cases h : i = n
      · subst i
        exact .inr ⟨hlt, hf⟩
      · exact .inl ⟨i, by omega, hf, hlt⟩

/-- The loop stops at `i` when nothing before `i` answers. -/
theorem findSome_range_at {n i : Nat} {f : Nat → Option β} {b : β} (hi : i < n)
    (hf : f i = some b) (hlt : ∀ j, j < i → f j = none) :
    (List.range n).findSome? f = some b :=
  findSome_range_some.mpr ⟨i, hi, hf, hlt⟩

end Scan
