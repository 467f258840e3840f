import Mathlib.Data.List.Nodup
import Mathlib.Logic.Function.Basic

/-!
# Circular doubly linked lists

`RingList l h xs` says that the links run from the head `h` through `xs` and back to `h`, both ways.
`RingLists l head L` says it of a family of lists that share no node; every operation is stated for
such a family, so what it leaves alone is part of its lemma.
-/

set_option autoImplicit false

structure Links (α : Type) where
  next : α → α
  prev : α → α

namespace Links

variable {α : Type} [DecidableEq α]

def setNext (l : Links α) (a b : α) : Links α := { l with next := Function.update l.next a b }

def setPrev (l : Links α) (a b : α) : Links α := { l with prev := Function.update l.prev a b }

@[simp] theorem setNext_prev (l : Links α) (a b : α) : (l.setNext a b).prev = l.prev := rfl

@[simp] theorem setPrev_next (l : Links α) (a b : α) : (l.setPrev a b).next = l.next := rfl

@[simp] theorem setNext_next (l : Links α) (a b : α) :
    (l.setNext a b).next = Function.update l.next a b := rfl

@[simp] theorem setPrev_prev (l : Links α) (a b : α) :
    (l.setPrev a b).prev = Function.update l.prev a b := rfl

/-- `INIT_LIST_HEAD`. -/
def initListHead (l : Links α) (n : α) : Links α := (l.setNext n n).setPrev n n

/-- Put `n` in front of the first node. -/
def add (l : Links α) (n h : α) : Links α :=
  (((l.setPrev (l.next h) n).setNext n (l.next h)).setPrev n h).setNext h n

/-- Put `n` behind the last node. -/
def addTail (l : Links α) (n h : α) : Links α :=
  (((l.setNext (l.prev h) n).setNext n h).setPrev n (l.prev h)).setPrev h n

/-- Link the neighbours of `n` with each other. -/
def unlink (l : Links α) (n : α) : Links α :=
  (l.setPrev (l.next n) (l.prev n)).setNext (l.prev n) (l.next n)

/-- Take `n` out of its list and link it to itself. -/
def delInit (l : Links α) (n : α) : Links α := (l.unlink n).initListHead n

/-- Take `n` out of its list and clear its links. -/
def del (null : α) (l : Links α) (n : α) : Links α :=
  ((l.unlink n).setNext n null).setPrev n null

def isEmpty (l : Links α) (h : α) : Bool := l.next h = h

/-- The nodes from `p` to `last`. -/
def count (l : Links α) (last : α) : Nat → α → Option Nat
  | 0, _ => none
  | k + 1, p => if p = last then some 1 else (l.count last k (l.next p)).map (· + 1)

def length (l : Links α) (fuel : Nat) (h : α) : Option Nat :=
  if l.next h = l.prev h ∧ l.next h = h then some 0 else l.count (l.prev h) fuel (l.next h)

/-- Walk from `p` until `n` or `last` is met. -/
def walk (l : Links α) (n last : α) : Nat → α → Option α
  | 0, _ => none
  | k + 1, p => if p = n ∨ p = last then some p else walk l n last k (l.next p)

/-- The walk stops at the last node before it has been compared. -/
def findElement (l : Links α) (fuel : Nat) (n h : α) : Option Bool :=
  (l.walk n (l.prev h) fuel (l.next h)).map fun p => decide (p ≠ l.prev h)

end Links

namespace Links

variable {α : Type} [DecidableEq α] {l : Links α} {n h x : α}

theorem addTail_next_of_ne (hn : x ≠ n) (hp : x ≠ l.prev h) :
    (l.addTail n h).next x = l.next x := by
  simp [addTail, hn, hp]

theorem addTail_prev_of_ne (hn : x ≠ n) (hh : x ≠ h) : (l.addTail n h).prev x = l.prev x := by
  simp [addTail, hn, hh]

theorem unlink_next_of_ne (hp : x ≠ l.prev n) : (l.unlink n).next x = l.next x := by
  simp [unlink, hp]

theorem unlink_prev_of_ne (hq : x ≠ l.next n) : (l.unlink n).prev x = l.prev x := by
  simp [unlink, hq]

end Links

/-! ## Paths -/

/-- From `a` through `xs` to `b`, linked both ways. -/
def LinkPath {α : Type} (l : Links α) : α → List α → α → Prop
  | a, [], b => l.next a = b ∧ l.prev b = a
  | a, x :: xs, b => l.next a = x ∧ l.prev x = a ∧ LinkPath l x xs b

namespace LinkPath

variable {α : Type} {l l' : Links α} {a b n : α} {xs ys : List α}

@[simp] theorem nil_iff : LinkPath l a [] b ↔ l.next a = b ∧ l.prev b = a := Iff.rfl

@[simp] theorem cons_iff {x : α} :
    LinkPath l a (x :: xs) b ↔ l.next a = x ∧ l.prev x = a ∧ LinkPath l x xs b := Iff.rfl

/-- Only the forward links of all nodes but the last and the backward links of all but the first
matter. -/
theorem congr (h : LinkPath l a xs b) (hn : ∀ x ∈ a :: xs, l'.next x = l.next x)
    (hp : ∀ x ∈ xs ++ [b], l'.prev x = l.prev x) : LinkPath l' a xs b := by
  induction xs generalizing a with
  | nil => exact ⟨(hn a (by simp)).trans h.1, (hp b (by simp)).trans h.2⟩
  | cons x xs ih =>
    refine ⟨(hn a (by simp)).trans h.1, (hp x (by simp)).trans h.2.1, ih h.2.2 ?_ ?_⟩
    · exact fun y hy => hn y (List.mem_cons_of_mem _ hy)
    · exact fun y hy => hp y (List.mem_cons_of_mem _ hy)

theorem append_iff : LinkPath l a (xs ++ n :: ys) b ↔ LinkPath l a xs n ∧ LinkPath l n ys b := by
  induction xs generalizing a with
  | nil => simp [and_assoc]
  | cons x xs ih => simp [ih, and_assoc]

theorem prev_mem (h : LinkPath l a xs b) : l.prev b ∈ a :: xs := by
  induction xs generalizing a with
  | nil => simp [h.2]
  | cons x xs ih => exact List.mem_cons_of_mem _ (ih h.2.2)

theorem next_mem (h : LinkPath l a xs b) : l.next a ∈ xs ++ [b] := by
  cases xs with
  | nil => simp [h.1]
  | cons x xs => simp [h.1]

theorem next_eq (h : LinkPath l a xs b) : l.next a = xs.headD b := by
  cases xs with
  | nil => exact h.1
  | cons x xs => exact h.1

theorem unique (h : LinkPath l a xs b) (h' : LinkPath l a ys b) (hx : b ∉ xs) (hy : b ∉ ys) :
    xs = ys := by
  induction xs generalizing a ys with
  | nil =>
    cases ys with
    | nil => rfl
    | cons y ys => exact absurd (h.1.symm.trans h'.1) fun he => hy (by simp [he])
  | cons x xs ih =>
    cases ys with
    | nil => exact absurd (h'.1.symm.trans h.1) fun he => hx (by simp [he])
    | cons y ys =>
      obtain rfl : x = y := h.1.symm.trans h'.1
      rw [ih h.2.2 h'.2.2 (fun hm => hx (by simp [hm])) fun hm => hy (by simp [hm])]

/-- The same path to another end, when only the last link changes. -/
theorem retarget (h : LinkPath l a xs b) (hd : (a :: xs).Nodup)
    (hn : ∀ x ∈ a :: xs, x ≠ l.prev b → l'.next x = l.next x)
    (hp : ∀ x ∈ xs, l'.prev x = l.prev x) (hnext : l'.next (l.prev b) = n)
    (hprev : l'.prev n = l.prev b) : LinkPath l' a xs n := by
  induction xs generalizing a with
  | nil =>
    have hb : l.prev b = a := h.2
    exact ⟨hb ▸ hnext, hprev.trans hb⟩
  | cons x xs ih =>
    obtain ⟨h1, h2, h3⟩ := h
    obtain ⟨ha, hd'⟩ := List.nodup_cons.mp hd
    have hab : a ≠ l.prev b := fun he => ha (he ▸ h3.prev_mem)
    refine ⟨(hn a (by simp) hab).trans h1, (hp x (by simp)).trans h2, ih h3 hd' ?_ ?_⟩
    · exact fun y hy => hn y (List.mem_cons_of_mem _ hy)
    · exact fun y hy => hp y (List.mem_cons_of_mem _ hy)

end LinkPath

/-- A walk along `next` from `p` through `xs` to `last`. -/
def Trail {α : Type} (next : α → α) (last : α) : α → List α → Prop
  | p, [] => p = last
  | p, x :: xs => p = x ∧ Trail next last (next x) xs

theorem Trail.congr {α : Type} {next next' : α → α} {last p : α} {xs : List α}
    (h : Trail next last p xs) (hn : ∀ x ∈ xs, next' x = next x) : Trail next' last p xs := by
  induction xs generalizing p with
  | nil => exact h
  | cons x xs ih =>
    refine ⟨h.1, ?_⟩
    rw [hn x (by simp)]
    exact ih h.2 fun y hy => hn y (List.mem_cons_of_mem _ hy)

theorem LinkPath.trail {α : Type} {l : Links α} {a b : α} {xs : List α} (h : LinkPath l a xs b) :
    Trail l.next b (l.next a) xs := by
  induction xs generalizing a with
  | nil => exact h.1
  | cons x xs ih => exact ⟨h.1, ih h.2.2⟩

/-! ## One list -/

structure RingList {α : Type} (l : Links α) (h : α) (xs : List α) : Prop where
  path : LinkPath l h xs h
  nodup : (h :: xs).Nodup

namespace RingList

variable {α : Type} {l l' : Links α} {h n : α} {xs ys : List α}

theorem congr (r : RingList l h xs) (hn : ∀ x ∈ h :: xs, l'.next x = l.next x)
    (hp : ∀ x ∈ h :: xs, l'.prev x = l.prev x) : RingList l' h xs := by
  refine ⟨r.path.congr hn fun x hx => hp x ?_, r.nodup⟩
  simpa [or_comm] using hx

theorem next_eq_head (r : RingList l h xs) : l.next h = h ↔ xs = [] := by
  cases xs with
  | nil => simpa using r.path.1
  | cons x xs =>
    have hne : x ≠ h := fun he => (List.nodup_cons.mp r.nodup).1 (by simp [he])
    simpa [r.path.1] using hne

theorem prev_mem (r : RingList l h xs) : l.prev h ∈ h :: xs := r.path.prev_mem

theorem next_mem (r : RingList l h xs) : l.next h ∈ h :: xs := by
  simpa [or_comm] using r.path.next_mem

theorem unique (r : RingList l h xs) (r' : RingList l h ys) : xs = ys :=
  r.path.unique r'.path (List.nodup_cons.mp r.nodup).1 (List.nodup_cons.mp r'.nodup).1

theorem next_ne (r : RingList l h xs) (hn : n ∈ xs) : l.next n ≠ n := by
  obtain ⟨as, bs, rfl⟩ := List.append_of_mem hn
  have hd : (h :: as ++ n :: bs).Nodup := r.nodup
  obtain ⟨-, hd2, hapart⟩ := List.nodup_append.mp hd
  intro he
  rcases List.mem_append.mp (he ▸ (Iff.mp LinkPath.append_iff r.path).2.next_mem) with hm | hm
  · exact (List.nodup_cons.mp hd2).1 hm
  · exact hapart h (by simp) n (by simp) (List.mem_singleton.mp hm).symm

theorem prev_of_append (r : RingList l h (xs ++ n :: ys)) : l.prev n ∈ h :: xs :=
  (Iff.mp LinkPath.append_iff r.path).1.prev_mem

theorem next_of_append (r : RingList l h (xs ++ n :: ys)) : l.next n ∈ ys ++ [h] :=
  (Iff.mp LinkPath.append_iff r.path).2.next_mem

section Changes
variable [DecidableEq α]

theorem init (l : Links α) (h : α) : RingList (l.initListHead h) h [] :=
  ⟨by simp [Links.initListHead], by simp⟩

theorem add (r : RingList l h xs) (hn : n ∉ h :: xs) : RingList (l.add n h) h (n :: xs) := by
  have hnh : n ≠ h := fun he => hn (by simp [he])
  refine ⟨?_, ?_⟩
  · cases xs with
    | nil =>
      have hnext : l.next h = h := r.path.1
      simp [Links.add, hnext, hnh, hnh.symm]
    | cons x xs =>
      have hx : l.next h = x := r.path.1
      have hnx : n ≠ x := fun he => hn (by simp [he])
      obtain ⟨hh, hd⟩ := List.nodup_cons.mp r.nodup
      have hxh : x ≠ h := fun he => hh (by simp [he])
      refine ⟨by simp [Links.add], by simp [Links.add], ?_, ?_, r.path.2.2.congr ?_ ?_⟩
      · simp [Links.add, hx, hnh]
      · simp [Links.add, hx, hnx.symm]
      · intro y hy
        have hyh : y ≠ h := fun he => hh (he ▸ hy)
        have hyn : y ≠ n := fun he => hn (List.mem_cons_of_mem _ (he ▸ hy))
        simp [Links.add, hyh, hyn]
      · intro y hy
        have hyn : y ≠ n := by
          rintro rfl
          exact hn (by simpa [or_comm, or_left_comm] using List.mem_cons_of_mem x hy)
        have hyx : y ≠ x := by
          rintro rfl
          rcases List.mem_append.mp hy with hm | hm
          · exact (List.nodup_cons.mp hd).1 hm
          · exact hxh (List.mem_singleton.mp hm)
        simp [Links.add, hx, hyn, hyx]
  · rw [List.nodup_cons, List.mem_cons, List.nodup_cons]
    obtain ⟨hh, hd⟩ := List.nodup_cons.mp r.nodup
    exact ⟨not_or.mpr ⟨hnh.symm, hh⟩, fun hm => hn (List.mem_cons_of_mem _ hm), hd⟩

theorem addTail (r : RingList l h xs) (hn : n ∉ h :: xs) : RingList (l.addTail n h) h (xs ++ [n]) := by
  have hnh : n ≠ h := fun he => hn (by simp [he])
  have hlast : l.prev h ≠ n := fun he => hn (he ▸ r.prev_mem)
  refine ⟨Iff.mpr LinkPath.append_iff ⟨r.path.retarget r.nodup ?_ ?_ ?_ ?_, ?_⟩, ?_⟩
  · intro x hx hxl
    have hxn : x ≠ n := fun he => hn (he ▸ hx)
    simp [Links.addTail, hxl, hxn]
  · intro x hx
    have hxn : x ≠ n := fun he => hn (List.mem_cons_of_mem _ (he ▸ hx))
    have hxh : x ≠ h := fun he => (List.nodup_cons.mp r.nodup).1 (he ▸ hx)
    simp [Links.addTail, hxn, hxh]
  · simp [Links.addTail, hlast]
  · simp [Links.addTail, hnh]
  · simp [Links.addTail]
  · have := List.nodup_cons.mp r.nodup
    simp only [List.mem_cons, not_or] at hn
    simp only [List.nodup_cons, List.mem_append, List.mem_singleton, not_or, List.nodup_append]
    refine ⟨⟨this.1, hnh.symm⟩, this.2, by simp, ?_⟩
    rintro a ha b rfl rfl
    exact hn.2 ha

theorem unlink (r : RingList l h (xs ++ n :: ys)) : RingList (l.unlink n) h (xs ++ ys) := by
  obtain ⟨h1, h2⟩ := Iff.mp LinkPath.append_iff r.path
  have hd : (h :: xs ++ n :: ys).Nodup := r.nodup
  obtain ⟨hd1, hd2, hapart⟩ := List.nodup_append.mp hd
  obtain ⟨hny, hdy⟩ := List.nodup_cons.mp hd2
  have hy1 : ∀ x ∈ h :: xs, x ∉ ys := fun x hx hm => hapart x hx x (List.mem_cons_of_mem _ hm) rfl
  -- the first part now ends where the second began
  have hfirst : LinkPath (l.unlink n) h xs (l.next n) := by
    refine h1.retarget hd1 ?_ ?_ ?_ ?_
    · intro x _ hxl
      simp [Links.unlink, hxl]
    · intro x hx
      have hxq : x ≠ l.next n := by
        rintro rfl
        rcases List.mem_append.mp h2.next_mem with hm | hm
        · exact hy1 _ (List.mem_cons_of_mem _ hx) hm
        · rw [List.mem_singleton] at hm
          exact (List.nodup_cons.mp hd1).1 (hm ▸ hx)
      simp [Links.unlink, hxq]
    · simp [Links.unlink]
    · simp [Links.unlink]
  refine ⟨?_, hd1.append hdy fun x hx hy => hy1 x hx hy⟩
  cases ys with
  | nil =>
    rw [List.append_nil]
    rwa [h2.1] at hfirst
  | cons y ys =>
    have hy : l.next n = y := h2.1
    rw [hy] at hfirst
    refine Iff.mpr LinkPath.append_iff ⟨hfirst, h2.2.2.congr ?_ ?_⟩
    · intro x hx
      have hxp : x ≠ l.prev n := fun he => hy1 _ h1.prev_mem (he ▸ hx)
      simp [Links.unlink, hxp]
    · intro x hx
      have hxy : x ≠ y := by
        rintro rfl
        rcases List.mem_append.mp hx with hm | hm
        · exact (List.nodup_cons.mp hdy).1 hm
        · exact hy1 h (by simp) (by simp [List.mem_singleton.mp hm])
      simp [Links.unlink, hy, hxy]

/-- The links of a node that was taken out no longer matter. -/
theorem unlink_congr (r : RingList l h (xs ++ n :: ys))
    (hk : ∀ x, x ≠ n → l'.next x = (l.unlink n).next x ∧ l'.prev x = (l.unlink n).prev x) :
    RingList l' h (xs ++ ys) := by
  have hne : ∀ x ∈ h :: (xs ++ ys), x ≠ n := by
    rintro x hx rfl
    have hd : (h :: xs ++ x :: ys).Nodup := r.nodup
    exact (List.nodup_cons.mp (List.nodup_middle.mp hd)).1 hx
  exact r.unlink.congr (fun x hx => (hk x (hne x hx)).1) fun x hx => (hk x (hne x hx)).2

theorem delInit (r : RingList l h (xs ++ n :: ys)) : RingList (l.delInit n) h (xs ++ ys) :=
  r.unlink_congr fun x hx => by simp [Links.delInit, Links.initListHead, hx]

theorem del (null : α) (r : RingList l h (xs ++ n :: ys)) :
    RingList (l.del null n) h (xs ++ ys) :=
  r.unlink_congr fun x hx => by simp [Links.del, hx]

/-- Behind the last node is at the end. -/
theorem add_prev (r : RingList l h xs) (hn : n ∉ h :: xs) :
    l.add n (l.prev h) = l.addTail n h := by
  have hnext : l.next (l.prev h) = h := by
    rcases List.eq_nil_or_concat xs with rfl | ⟨ys, z, rfl⟩
    · rw [r.path.2, r.path.1]
    · rw [List.concat_eq_append] at r
      obtain ⟨-, h1, h2⟩ := Iff.mp LinkPath.append_iff r.path
      rw [h2, h1]
  have hnh : n ≠ h := fun he => hn (by simp [he])
  have hnp : n ≠ l.prev h := fun he => hn (he ▸ r.prev_mem)
  rw [Links.add, Links.addTail, hnext]
  simp only [Links.setNext, Links.setPrev, Links.mk.injEq]
  exact ⟨Function.update_comm hnp .., Function.update_comm hnh.symm ..⟩

theorem isEmpty_iff (r : RingList l h xs) : l.isEmpty h = true ↔ xs = [] := by
  rw [Links.isEmpty, decide_eq_true_iff, r.next_eq_head]

/-- A walk from a node on ends at `n` or, if `n` is not met, at the last node. -/
theorem walk_path {a last : α} {k : Nat} (p : LinkPath l a xs last) (hl : last ∉ xs)
    (hk : xs.length < k) : l.walk n last k (l.next a) = some (if n ∈ xs then n else last) := by
  induction xs generalizing a k with
  | nil =>
    obtain ⟨k, rfl⟩ := Nat.exists_eq_succ_of_ne_zero (Nat.ne_of_gt hk)
    simp [Links.walk, p.1]
  | cons x xs ih =>
    obtain ⟨k, rfl⟩ := Nat.exists_eq_succ_of_ne_zero (Nat.ne_of_gt (Nat.zero_lt_of_lt hk))
    have hxl : x ≠ last := fun he => hl (by simp [he])
    rw [p.1, Links.walk]
    by_cases hx : x = n
    · simp [hx]
    · have hk' : xs.length < k := by simpa using hk
      rw [if_neg (not_or.mpr ⟨hx, hxl⟩), ih p.2.2 (fun hm => hl (List.mem_cons_of_mem _ hm)) hk']
      simp [Ne.symm hx]

theorem count_path {a last : α} {k : Nat} (p : LinkPath l a xs last) (hl : last ∉ xs)
    (hk : xs.length < k) : l.count last k (l.next a) = some (xs.length + 1) := by
  induction xs generalizing a k with
  | nil =>
    obtain ⟨k, rfl⟩ := Nat.exists_eq_succ_of_ne_zero (Nat.ne_of_gt hk)
    simp [Links.count, p.1]
  | cons x xs ih =>
    obtain ⟨k, rfl⟩ := Nat.exists_eq_succ_of_ne_zero (Nat.ne_of_gt (Nat.zero_lt_of_lt hk))
    have hxl : x ≠ last := fun he => hl (by simp [he])
    have hk' : xs.length < k := by simpa using hk
    rw [p.1, Links.count, if_neg hxl, ih p.2.2 (fun hm => hl (List.mem_cons_of_mem _ hm)) hk']
    simp

/-- The last node is never found. -/
theorem findElement_eq {k : Nat} (r : RingList l h xs) (hk : xs.length < k) :
    l.findElement k n h = some (decide (n ∈ xs.dropLast)) := by
  rcases List.eq_nil_or_concat xs with rfl | ⟨ys, z, rfl⟩
  · have hw := walk_path (n := n) (k := k) r.path (by simp) hk
    simp [Links.findElement, r.path.2, hw]
  · rw [List.concat_eq_append] at *
    obtain ⟨h1, h2⟩ := Iff.mp LinkPath.append_iff r.path
    have hz : z ∉ ys := fun hm =>
      (List.nodup_append.mp (List.nodup_cons.mp r.nodup).2).2.2 z hm z (by simp) rfl
    have hlen : ys.length < k := Nat.lt_of_le_of_lt (by simp) hk
    rw [Links.findElement, h2.2, walk_path h1 hz hlen]
    by_cases hn : n ∈ ys
    · have hnz : n ≠ z := fun he => hz (he ▸ hn)
      simp [hn, hnz]
    · simp [hn]

theorem length_eq {k : Nat} (r : RingList l h xs) (hk : xs.length < k) :
    l.length k h = some xs.length := by
  rcases List.eq_nil_or_concat xs with rfl | ⟨ys, z, rfl⟩
  · simp [Links.length, r.path.1, r.path.2]
  · rw [List.concat_eq_append] at *
    obtain ⟨h1, h2⟩ := Iff.mp LinkPath.append_iff r.path
    have hd := (List.nodup_append.mp (List.nodup_cons.mp r.nodup).2).2.2
    have hz : z ∉ ys := fun hm => hd z hm z (by simp) rfl
    have hne : ¬ l.next h = h := by simp [r.next_eq_head]
    have hlen : ys.length < k := Nat.lt_of_le_of_lt (by simp) hk
    rw [Links.length, if_neg (fun hc => hne hc.2), h2.2, count_path h1 hz hlen]
    simp

end Changes

end RingList

/-! ## Families of lists -/

structure RingLists {α ι : Type} (l : Links α) (head : ι → α) (L : ι → List α) : Prop where
  ring : ∀ i, RingList l (head i) (L i)
  apart : ∀ i j, i ≠ j → List.Disjoint (head i :: L i) (head j :: L j)

/-- `n` is a node of none of the lists. -/
def Unlinked {α ι : Type} (head : ι → α) (L : ι → List α) (n : α) : Prop := ∀ i, n ∉ head i :: L i

namespace RingLists

variable {α ι : Type} [DecidableEq α] [DecidableEq ι] {l l' : Links α} {head : ι → α}
  {L : ι → List α} {i : ι} {n : α} {xs ys : List α}

omit [DecidableEq α] in
/-- One list changes, with links of its own nodes and of nodes outside of all lists only. -/
theorem change {S : List α} (r : RingLists l head L) (h : RingList l' (head i) ys) (hh : head i ∈ S)
    (hy : ∀ y ∈ ys, y ∈ S) (hS : ∀ j, j ≠ i → List.Disjoint S (head j :: L j))
    (hk : ∀ x, x ∉ S → l'.next x = l.next x ∧ l'.prev x = l.prev x) :
    RingLists l' head (Function.update L i ys) := by
  have hsub : ∀ x ∈ head i :: ys, x ∈ S := by
    intro x hx
    rcases List.mem_cons.mp hx with rfl | hx
    · exact hh
    · exact hy x hx
  constructor
  · intro j
    by_cases hj : j = i
    · subst hj
      rwa [Function.update_self]
    · rw [Function.update_of_ne hj]
      exact (r.ring j).congr (fun x hx => (hk x fun hs => hS j hj hs hx).1)
        fun x hx => (hk x fun hs => hS j hj hs hx).2
  · intro a b hab
    by_cases ha : a = i
    · subst ha
      rw [Function.update_self, Function.update_of_ne hab.symm]
      exact fun x hx hb => hS b hab.symm (hsub x hx) hb
    · rw [Function.update_of_ne ha]
      by_cases hb : b = i
      · subst hb
        rw [Function.update_self]
        exact fun x hx hy => hS a ha (hsub x hy) hx
      · rw [Function.update_of_ne hb]
        exact r.apart a b hab

omit [DecidableEq α] [DecidableEq ι] in
theorem free_disjoint (r : RingLists l head L) (hf : Unlinked head L n) (j : ι) (hj : j ≠ i) :
    List.Disjoint (n :: head i :: L i) (head j :: L j) := by
  intro x hx hm
  rcases List.mem_cons.mp hx with rfl | hx
  · exact hf j hm
  · exact r.apart i j hj.symm hx hm

theorem add (r : RingLists l head L) (hf : Unlinked head L n) :
    RingLists (l.add n (head i)) head (Function.update L i (n :: L i)) := by
  refine r.change (S := n :: head i :: L i) ((r.ring i).add (hf i)) (by simp) ?_ ?_ ?_
  · intro y hy
    rcases List.mem_cons.mp hy with rfl | hy
    · simp
    · simp [hy]
  · exact fun j hj => r.free_disjoint hf j hj
  · intro x hx
    have hxn : x ≠ n := fun he => hx (by simp [he])
    have hxh : x ≠ head i := fun he => hx (by simp [he])
    have hxf : x ≠ l.next (head i) := fun he =>
      hx (List.mem_cons_of_mem _ (he ▸ (r.ring i).next_mem))
    simp [Links.add, hxn, hxh, hxf]

theorem addTail (r : RingLists l head L) (hf : Unlinked head L n) :
    RingLists (l.addTail n (head i)) head (Function.update L i (L i ++ [n])) := by
  refine r.change (S := n :: head i :: L i) ((r.ring i).addTail (hf i)) (by simp) ?_ ?_ ?_
  · intro y hy
    rcases List.mem_append.mp hy with hy | hy
    · simp [hy]
    · simp [List.mem_singleton.mp hy]
  · exact fun j hj => r.free_disjoint hf j hj
  · intro x hx
    have hxn : x ≠ n := fun he => hx (by simp [he])
    have hxh : x ≠ head i := fun he => hx (by simp [he])
    have hxl : x ≠ l.prev (head i) := fun he =>
      hx (List.mem_cons_of_mem _ (he ▸ (r.ring i).prev_mem))
    simp [Links.addTail, hxn, hxh, hxl]

/-- A node is taken out; its own links no longer matter. -/
theorem unlink_congr (r : RingLists l head L) (hL : L i = xs ++ n :: ys)
    (hk : ∀ x, x ≠ n → l'.next x = (l.unlink n).next x ∧ l'.prev x = (l.unlink n).prev x) :
    RingLists l' head (Function.update L i (xs ++ ys)) := by
  have hr := r.ring i
  rw [hL] at hr
  refine r.change (S := head i :: L i) (hr.unlink_congr hk) (by simp) ?_ ?_ ?_
  · intro y hy
    rw [hL]
    rcases List.mem_append.mp hy with hy | hy <;> simp [hy]
  · exact fun j hj => r.apart i j hj.symm
  · intro x hx
    have hxn : x ≠ n := fun he => hx (by simp [hL, he])
    have hxp : x ≠ l.prev n := by
      rintro rfl
      have hm := hr.prev_of_append
      exact hx (by rw [hL]; simp only [List.mem_cons, List.mem_append] at hm ⊢; tauto)
    have hxq : x ≠ l.next n := by
      rintro rfl
      have hm := hr.next_of_append
      exact hx (by rw [hL]; simp only [List.mem_cons, List.mem_append] at hm ⊢; tauto)
    obtain ⟨h1, h2⟩ := hk x hxn
    simp [h1, h2, Links.unlink, hxp, hxq]

theorem delInit (r : RingLists l head L) (hL : L i = xs ++ n :: ys) :
    RingLists (l.delInit n) head (Function.update L i (xs ++ ys)) :=
  r.unlink_congr hL fun x hx => by simp [Links.delInit, Links.initListHead, hx]

theorem del (null : α) (r : RingLists l head L) (hL : L i = xs ++ n :: ys) :
    RingLists (l.del null n) head (Function.update L i (xs ++ ys)) :=
  r.unlink_congr hL fun x hx => by simp [Links.del, hx]

/-- The first node is popped. -/
theorem pop (r : RingLists l head L) (hL : L i = n :: xs) :
    l.next (head i) = n ∧ RingLists (l.delInit n) head (Function.update L i xs) := by
  have hr := r.ring i
  rw [hL] at hr
  exact ⟨hr.path.1, @delInit _ _ _ _ _ _ _ _ _ [] _ r hL⟩

/-- A node put behind a single one twice: the links mend when that one is popped. -/
theorem addTail_twice {a : α} (r : RingLists l head L) (hL : L i = [a]) (hf : Unlinked head L n) :
    ((l.addTail n (head i)).addTail n (head i)).next (head i) = a ∧
      RingLists (((l.addTail n (head i)).addTail n (head i)).delInit a) head
        (Function.update L i [n]) := by
  have hr := r.ring i
  have hn := hf i
  rw [hL] at hr hn
  obtain ⟨h1, -, h3, h4⟩ := hr.path
  have hah : a ≠ head i := fun he => (List.nodup_cons.mp hr.nodup).1 (by simp [he])
  have hnh : n ≠ head i := fun he => hn (by simp [he])
  have hna : n ≠ a := fun he => hn (by simp [he])
  have h5 : l.prev a = head i := hr.path.2.1
  -- the second call finds `n` itself as the last node
  let t := l.addTail n (head i)
  have t4 : t.prev (head i) = n := by simp [t, Links.addTail]
  let u := t.addTail n (head i)
  have u1 : u.next (head i) = a := by simp [u, t, Links.addTail, h1, h4, hah.symm, hnh.symm]
  have u2 : u.next a = n := by simp [u, t, Links.addTail, h4, hna.symm]
  have u3 : u.prev a = head i := by simp [u, t, Links.addTail, h5, hna.symm, hah]
  have u4 : u.next n = head i := by simp [u, Links.addTail]
  have u5 : u.prev (head i) = n := by simp [u, Links.addTail]
  refine ⟨u1, @RingLists.change _ _ _ _ (u.delInit a) _ _ _ _ (n :: head i :: L i) r ⟨?_, by simp [hnh.symm]⟩
    (by simp) (by simp) (fun j hj => r.free_disjoint hf j hj) ?_⟩
  · simp [Links.delInit, Links.unlink, Links.initListHead, u2, u3, u4, u5, hah.symm, hnh, hnh.symm,
      hna]
  · intro x hx
    have hxn : x ≠ n := fun he => hx (by simp [he])
    have hxh : x ≠ head i := fun he => hx (by simp [he])
    have hxa : x ≠ a := fun he => hx (by simp [hL, he])
    have hu : u.next x = l.next x ∧ u.prev x = l.prev x := by
      simp [u, t, Links.addTail, h4, hxn, hxh, hxa]
    simpa [Links.delInit, Links.unlink, Links.initListHead, u2, u3, hxn, hxh, hxa] using hu

omit [DecidableEq α] in
/-- A node that was taken out is in none of the lists. -/
theorem removed_unlinked (r : RingLists l head L) (hL : L i = xs ++ n :: ys) :
    Unlinked head (Function.update L i (xs ++ ys)) n := by
  have hn : n ∈ L i := by simp [hL]
  intro j hj
  by_cases hji : j = i
  · subst hji
    rw [Function.update_self] at hj
    have hd : (head j :: xs ++ n :: ys).Nodup := by
      have := (r.ring j).nodup
      rwa [hL] at this
    exact (List.nodup_cons.mp (List.nodup_middle.mp hd)).1 hj
  · rw [Function.update_of_ne hji] at hj
    exact r.apart i j (Ne.symm hji) (List.mem_cons_of_mem _ hn) hj

omit [DecidableEq α] [DecidableEq ι] in
/-- A node is in one list only, and there once. -/
theorem mem_unique (r : RingLists l head L) {j : ι} (hi : n ∈ L i) (hj : n ∈ L j) : i = j :=
  Classical.byContradiction fun h =>
    r.apart i j h (List.mem_cons_of_mem _ hi) (List.mem_cons_of_mem _ hj)

end RingLists
