import Mathlib.Data.List.Nodup
import Mathlib.Logic.Function.Basic
import Mathlib.Tactic.Push

/-!
# The painter's algorithm

A picture is a function from points to colours. It is written point by point, or painted layer by
layer; the colour of a point is then that of the last layer that covers it.
-/

set_option autoImplicit false

namespace Painter

variable {ι α β : Type}

/-! ## Single points -/

section Writes
variable [DecidableEq ι] {ws : List (ι × (α → α))} {b : ι → α} {i : ι} {f : α → α}

def write (b : ι → α) (w : ι × (α → α)) : ι → α := Function.update b w.1 (w.2 (b w.1))

def writeAll (ws : List (ι × (α → α))) (b : ι → α) : ι → α := ws.foldl write b

@[simp] theorem writeAll_nil : writeAll [] b = b := rfl

@[simp] theorem writeAll_cons {w : ι × (α → α)} :
    writeAll (w :: ws) b = writeAll ws (write b w) := rfl

theorem writeAll_of_notMem (h : i ∉ ws.map Prod.fst) : writeAll ws b i = b i := by
  induction ws generalizing b with
  | nil => rfl
  | cons w ws ih =>
    rw [List.map_cons, List.mem_cons, not_or] at h
    rw [writeAll_cons, ih h.2]
    exact Function.update_of_ne h.1 ..

theorem writeAll_of_mem (hn : (ws.map Prod.fst).Nodup) (h : (i, f) ∈ ws) :
    writeAll ws b i = f (b i) := by
  induction ws generalizing b with
  | nil => cases h
  | cons w ws ih =>
    rw [List.map_cons, List.nodup_cons] at hn
    rw [writeAll_cons]
    rcases List.mem_cons.mp h with rfl | h
    · rw [writeAll_of_notMem hn.1]
      exact Function.update_self ..
    · have hne : i ≠ w.1 := by
        rintro rfl
        exact hn.1 (List.mem_map.mpr ⟨_, h, rfl⟩)
      rw [ih hn.2 h, write, Function.update_of_ne hne]

theorem writeAll_append {vs : List (ι × (α → α))} :
    writeAll (ws ++ vs) b = writeAll vs (writeAll ws b) := List.foldl_append

/-- Copy some points of another picture. -/
theorem writeAll_copy {is : List ι} {g : ι → α} :
    writeAll (is.map fun i => (i, fun _ => g i)) b i = if i ∈ is then g i else b i := by
  induction is generalizing b with
  | nil => rfl
  | cons j is ih =>
    rw [List.map_cons, writeAll_cons, ih]
    by_cases hi : i ∈ is
    · rw [if_pos hi, if_pos (List.mem_cons_of_mem _ hi)]
    · rw [if_neg hi, write, Function.update_apply]
      by_cases hj : i = j
      · subst hj
        simp
      · rw [if_neg hj, if_neg (by simp [hi, hj])]

end Writes

/-! ## Layers -/

/-- The last layer that answers. -/
def topmost (f : β → Option α) (layers : List β) : Option α := layers.reverse.findSome? f

/-- A layer over a picture; `none` lets the picture through. -/
def overlay (f : ι → Option α) (b : ι → α) : ι → α := fun i => (f i).getD (b i)

section Layers
variable {f g : β → Option α} {l m : List β} {a : α} {x : β}

@[simp] theorem topmost_nil : topmost f [] = none := rfl

theorem topmost_append : topmost f (l ++ m) = (topmost f m).or (topmost f l) := by
  rw [topmost, List.reverse_append, List.findSome?_append]
  rfl

@[simp] theorem topmost_singleton : topmost f [x] = f x := by
  rw [topmost, List.reverse_singleton, List.findSome?_cons]
  cases f x <;> rfl

theorem topmost_cons : topmost f (x :: l) = (topmost f l).or (f x) := by
  rw [← List.singleton_append, topmost_append, topmost_singleton]

theorem topmost_eq_none : topmost f l = none ↔ ∀ x ∈ l, f x = none := by
  simp [topmost, List.findSome?_eq_none_iff]

theorem topmost_congr (h : ∀ x ∈ l, f x = g x) : topmost f l = topmost g l := by
  induction l with
  | nil => rfl
  | cons x l ih =>
    rw [topmost_cons, topmost_cons, h x List.mem_cons_self,
      ih fun y hy => h y (List.mem_cons_of_mem _ hy)]

/-- A layer that comes again later does not matter. -/
theorem topmost_cons_of_mem (h : x ∈ l) : topmost f (x :: l) = topmost f l := by
  rw [topmost_cons]
  cases ho : topmost f l with
  | some a => rfl
  | none => rw [topmost_eq_none.mp ho x h, Option.none_or]

/-- A layer that does not cover the point may be taken out. -/
theorem topmost_erase [DecidableEq β] (h : f x = none) :
    topmost f (l.erase x) = topmost f l := by
  induction l with
  | nil => rfl
  | cons y l ih =>
    by_cases hy : y = x
    · subst hy
      rw [List.erase_cons_head, topmost_cons, h, Option.or_none]
    · rw [List.erase_cons_tail (by simpa using hy), topmost_cons, topmost_cons, ih]

/-- Painting layer by layer leaves the topmost answer. -/
theorem foldl_overlay (c : β → ι → Option α) (b : ι → α) (i : ι) :
    l.foldl (fun b x => overlay (c x) b) b i = (topmost (c · i) l).getD (b i) := by
  induction l generalizing b with
  | nil => rfl
  | cons x l ih =>
    rw [List.foldl_cons, ih, topmost_cons, overlay]
    cases topmost (c · i) l <;> rfl

end Layers

/-! ## Two tests on one stack -/

section Tests
variable {p q : β → Bool} {l : List β}

/-- The last element that passes. -/
def lastOf (p : β → Bool) (l : List β) : Option β := l.reverse.find? p

theorem lastOf_append {m : List β} : lastOf p (l ++ m) = (lastOf p m).or (lastOf p l) := by
  rw [lastOf, List.reverse_append, List.find?_append]
  rfl

theorem lastOf_singleton {x : β} : lastOf p [x] = if p x then some x else none := by
  rw [lastOf, List.reverse_singleton, List.find?_singleton]

theorem lastOf_cons {x : β} :
    lastOf p (x :: l) = (lastOf p l).or (if p x then some x else none) := by
  rw [← List.singleton_append, lastOf_append, lastOf_singleton]

theorem lastOf_eq_none : lastOf p l = none ↔ ∀ x ∈ l, p x = false := by
  simp [lastOf]

theorem lastOf_mem {x : β} (h : lastOf p l = some x) : x ∈ l ∧ p x = true := by
  refine ⟨?_, List.find?_some h⟩
  exact List.mem_reverse.mp (List.mem_of_find?_eq_some h)

/-- An element that comes again later does not matter. -/
theorem lastOf_cons_of_mem {x : β} (h : x ∈ l) : lastOf p (x :: l) = lastOf p l := by
  rw [lastOf_cons]
  cases ho : lastOf p l with
  | some y => rfl
  | none =>
    rw [lastOf_eq_none.mp ho x h]
    rfl

/-- The last of the points that the elements write, found element by element. -/
theorem lastOf_tagged {f : β → List ι} {t : ι → Bool} :
    (lastOf (fun e : β × ι => t e.2) (l.flatMap fun x => (f x).map fun i => (x, i))).map Prod.fst =
      lastOf (fun x => (f x).any t) l := by
  have hone : ∀ (x : β) (is : List ι),
      (lastOf (fun e : β × ι => t e.2) (is.map fun i => (x, i))).map Prod.fst =
        if is.any t then some x else none := by
    intro x is
    induction is with
    | nil => rfl
    | cons i is ih =>
      rw [List.map_cons, lastOf_cons, Option.map_or, ih, List.any_cons]
      cases is.any t <;> cases t i <;> rfl
  induction l with
  | nil => rfl
  | cons x l ih =>
    rw [List.flatMap_cons, lastOf_append, Option.map_or, ih, hone, lastOf_cons]

/-- Two tests find the same element exactly when the last element that passes one of them passes
both. -/
theorem lastOf_eq_iff : lastOf p l = lastOf q l ↔
    ∀ x, lastOf (fun y => p y || q y) l = some x → p x = true ∧ q x = true := by
  unfold lastOf
  induction l.reverse with
  | nil => simp
  | cons y l ih =>
    simp only [List.find?_cons]
    cases hp : p y <;> cases hq : q y
    · simpa using ih
    · simp only [Bool.false_or]
      constructor
      · intro h
        have hy := List.find?_some h
        rw [hp] at hy
        cases hy
      · intro h
        have hy := (h y rfl).1
        rw [hp] at hy
        cases hy
    · simp only [Bool.or_false]
      constructor
      · intro h
        have hy := List.find?_some h.symm
        rw [hq] at hy
        cases hy
      · intro h
        have hy := (h y rfl).2
        rw [hq] at hy
        cases hy
    · simp [hp, hq]

end Tests

end Painter
