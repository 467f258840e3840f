import Frog.Structs.HashMap
import Frog.Lib.Runs

/-!
# The hash map and the finite map

A bucket holds the present keys with one remainder. As long as no key is set twice without being
removed in between, the buckets are a finite map; `hashmap_get` alone may still take an absent key
for the only key of its bucket.
-/

set_option autoImplicit false

namespace Frog.HashMap

open Prog

/-- The buckets are the chains `C`. -/
structure Rep (m : Hashmap) (C : Nat → List Cell) : Prop where
  pos : 0 < m.size
  cells : ∀ i, i < m.size → Cells m.heap (m.entry i) (C i)
  nodup : ∀ i, i < m.size → (addrs (C i)).Nodup
  apart : ∀ i j, i < m.size → j < m.size → i ≠ j → List.Disjoint (addrs (C i)) (addrs (C j))
  hashed : ∀ i, i < m.size → ∀ c ∈ C i, hashFunction c.2.1 m.size = i

namespace Rep

variable {m m' : Hashmap} {C : Nat → List Cell} {i fuel : Nat} {ys : List Cell} {key value : Word}
  {a : Addr}

theorem hash_lt (r : Rep m C) (key : Word) : hashFunction key m.size < m.size :=
  Nat.mod_lt _ r.pos

theorem fresh (r : Rep m C) (ha : m.heap a = none) (hi : i < m.size) : a ∉ addrs (C i) :=
  fun hm => (r.cells i hi).live hm ha

/-- One bucket changes, with its own entries and new ones only. -/
theorem change (r : Rep m C) (hi : i < m.size) (hs : m'.size = m.size)
    (hc : Cells m'.heap (m'.entry i) ys) (hd : (addrs ys).Nodup)
    (he : ∀ j, j ≠ i → m'.entry j = m.entry j)
    (hh : ∀ a, a ∉ addrs (C i) → m.heap a ≠ none → m'.heap a = m.heap a)
    (hy : ∀ a ∈ addrs ys, a ∈ addrs (C i) ∨ m.heap a = none)
    (hk : ∀ c ∈ ys, hashFunction c.2.1 m.size = i) : Rep m' (Function.update C i ys) := by
  have hfar : ∀ j, j < m.size → j ≠ i → List.Disjoint (addrs ys) (addrs (C j)) := by
    intro j hj hji a ha hm
    rcases hy a ha with hai | hn
    · exact r.apart i j hi hj hji.symm hai hm
    · exact r.fresh hn hj hm
  constructor
  · rw [hs]
    exact r.pos
  · intro j hj
    rw [hs] at hj
    by_cases hji : j = i
    · subst hji
      rwa [Function.update_self]
    · rw [Function.update_of_ne hji, he j hji]
      refine (r.cells j hj).congr fun a ha => hh a ?_ ((r.cells j hj).live ha)
      exact fun hm => r.apart j i hj hi hji ha hm
  · intro j hj
    rw [hs] at hj
    by_cases hji : j = i
    · subst hji
      rwa [Function.update_self]
    · rw [Function.update_of_ne hji]
      exact r.nodup j hj
  · intro j k hj hk' hjk
    rw [hs] at hj hk'
    by_cases hji : j = i
    · subst hji
      rw [Function.update_self, Function.update_of_ne hjk.symm]
      exact hfar k hk' hjk.symm
    · rw [Function.update_of_ne hji]
      by_cases hki : k = i
      · subst hki
        rw [Function.update_self]
        exact fun a ha hm => hfar j hj hji hm ha
      · rw [Function.update_of_ne hki]
        exact r.apart j k hj hk' hjk
  · intro j hj
    rw [hs] at hj ⊢
    by_cases hji : j = i
    · subst hji
      rwa [Function.update_self]
    · rw [Function.update_of_ne hji]
      exact r.hashed j hj

theorem init {size : Nat} (h : 0 < size) : Rep (hashmapInit size) fun _ => [] := by
  refine ⟨h, fun _ _ => rfl, fun _ _ => List.nodup_nil, ?_, fun i hi c hc => ?_⟩
  · exact fun i j _ _ _ a ha => absurd ha List.not_mem_nil
  · exact absurd hc List.not_mem_nil

end Rep

/-! ## The functions -/

section Functions
variable {m : Hashmap} {C : Nat → List Cell} {fuel : Nat} {key value : Word} {a : Addr}

/-- The chain of a key. -/
def chain (m : Hashmap) (C : Nat → List Cell) (key : Word) : List Cell :=
  C (hashFunction key m.size)

theorem wp_index {Q : Nat → Hashmap → Prop} :
    wp Never (index key) Q m ↔ Q (hashFunction key m.size) m := by
  rw [index, wp_bind, wp_get, wp_pure]

theorem wp_hashmapSet (r : Rep m C) (ha : m.heap a = none) (hn : (chain m C key).length ≤ fuel) :
    wp Never (hashmapSet fuel (some a) key value) (fun _ t => t.size = m.size ∧
      Rep t (Function.update C (hashFunction key m.size)
        (chain m C key ++ [(a, key, value)]))) m := by
  have hi := r.hash_lt key
  have hc := r.cells _ hi
  have hf := r.fresh ha hi
  have hd : (addrs (chain m C key ++ [(a, key, value)])).Nodup := by
    rw [addrs, List.map_append]
    refine (r.nodup _ hi).append (List.nodup_singleton _) fun b hb hm => ?_
    obtain rfl : b = a := List.mem_singleton.mp hm
    exact hf hb
  have hy : ∀ b ∈ addrs (chain m C key ++ [(a, key, value)]),
      b ∈ addrs (chain m C key) ∨ m.heap b = none := by
    intro b hb
    rw [addrs, List.map_append] at hb
    rcases List.mem_append.mp hb with hb | hb
    · exact Or.inl hb
    · obtain rfl : b = a := List.mem_singleton.mp hb
      exact Or.inr ha
  have hk : ∀ c ∈ chain m C key ++ [(a, key, value)],
      hashFunction c.2.1 m.size = hashFunction key m.size := by
    intro c hc
    rcases List.mem_append.mp hc with hc | hc
    · exact r.hashed _ hi c hc
    · rw [List.mem_singleton.mp hc]
  rw [hashmapSet, wp_bind, wp_index, wp_bind, wp_load (show Slot.Valid m (.bucket _) from hi)]
  simp only [Slot.read]
  cases ho : m.entry (hashFunction key m.size) with
  | none =>
    have hnil : chain m C key = [] := hc.eq_none_iff.mp ho
    simp only [wp_bind, setEntry, wp_modify, wp_pure]
    refine (wp_store ?_).mpr ?_
    · exact hi
    refine ⟨rfl, r.change hi rfl ?_ hd ?_ ?_ hy hk⟩
    · rw [hnil]
      exact ⟨by simp [Slot.write], none, by simp [Slot.write], rfl⟩
    · exact fun j hj => Function.update_of_ne hj ..
    · intro b _ hb
      have hba : b ≠ a := fun he => hb (he ▸ ha)
      exact Function.update_of_ne hba ..
  | some e =>
    rw [ho] at hc
    have hc' : Cells (Function.update m.heap a (some ⟨key, value, none⟩)) (some e)
        (chain m C key) := by
      refine hc.congr fun b hb => ?_
      have hba : b ≠ a := fun he => hf (he ▸ hb)
      exact Function.update_of_ne hba ..
    simp only [need, wp_bind, setEntry, wp_modify, wp_pure]
    apply wp_mono (wp_lastEntry hc' hn)
    rintro z t ⟨rfl, us, k, v, hxs, hz⟩
    change Function.update m.heap a (some ⟨key, value, none⟩) z = some ⟨k, v, none⟩ at hz
    have hvz : Slot.Valid { m with
        heap := Function.update m.heap a (some ⟨key, value, none⟩) } (.next z) := by
      show Function.update m.heap a (some ⟨key, value, none⟩) z ≠ none
      rw [hz]
      exact Option.some_ne_none _
    rw [wp_store hvz]
    have hzm : z ∈ addrs (chain m C key) := by
      rw [hxs]
      simp [addrs]
    refine ⟨rfl, r.change hi rfl ?_ hd (fun _ _ => rfl) ?_ hy hk⟩
    · show Cells _ (m.entry (hashFunction key m.size)) _
      rw [ho]
      simp only [Slot.write, hz, Option.map_some]
      have hd' := r.nodup _ hi
      change (addrs (chain m C key)).Nodup at hd'
      change a ∉ addrs (chain m C key) at hf
      rw [hxs] at hc' hd' hf ⊢
      exact hc'.append hd' hf (Function.update_self ..)
    · intro b hb hbn
      have hba : b ≠ a := fun he => hbn (he ▸ ha)
      have hbz : b ≠ z := fun he => hb (he ▸ hzm)
      exact (Function.update_of_ne hbz ..).trans (Function.update_of_ne hba ..)

theorem wp_hashmapHas (r : Rep m C) (hn : (chain m C key).length ≤ fuel) :
    wp Never (hashmapHas fuel key)
      (fun b t => t = m ∧ b = (lookup key (chain m C key)).isSome) m := by
  have hi := r.hash_lt key
  rw [hashmapHas, wp_bind, wp_index, wp_bind, wp_load (show Slot.Valid m (.bucket _) from hi),
    wp_bind]
  apply wp_mono (wp_findEntry (r.cells _ hi) hn)
  rintro p t ⟨rfl, -, hp⟩
  rw [wp_pure]
  refine ⟨rfl, ?_⟩
  rw [chain, ← hp, Option.isSome_map]

/-- An only entry decides, whatever its key. -/
def getFrom (key : Word) : List Cell → Word
  | [(_, _, v)] => v
  | xs => ((lookup key xs).map fun c => c.2.2).getD NULL

theorem wp_hashmapGet (r : Rep m C) (hn : (chain m C key).length ≤ fuel) :
    wp Never (hashmapGet fuel key) (fun v t => t = m ∧ v = getFrom key (chain m C key)) m := by
  have hi := r.hash_lt key
  have hc := r.cells _ hi
  change Cells _ _ (chain m C key) at hc
  rw [hashmapGet, wp_bind, wp_index, wp_bind, wp_load (show Slot.Valid m (.bucket _) from hi)]
  simp only [Slot.read]
  generalize chain m C key = xs at hc hn ⊢
  cases xs with
  | nil =>
    rw [hc.eq_none_iff.mpr rfl]
    exact ⟨rfl, rfl⟩
  | cons c xs =>
    obtain ⟨a, k, v⟩ := c
    obtain ⟨ho, l, hl, hx⟩ := id hc
    rw [ho] at hc ⊢
    simp only [wp_bind, wp_entryAt hl, wp_ite, wp_pure]
    constructor
    · rintro rfl
      obtain rfl : xs = [] := hx.eq_none_iff.mp rfl
      exact ⟨trivial, rfl⟩
    · intro hne
      apply wp_mono (wp_findEntry hc hn)
      rintro p t ⟨rfl, -, hp⟩
      have hg : getFrom key ((a, k, v) :: xs) =
          ((lookup key ((a, k, v) :: xs)).map fun c => c.2.2).getD NULL := by
        cases xs with
        | nil => exact absurd (hx.eq_none_iff.mpr rfl) hne
        | cons c xs => rfl
      rw [hg, ← hp]
      cases p with
      | none => exact ⟨rfl, rfl⟩
      | some p => exact ⟨rfl, rfl⟩

theorem wp_hashmapRemove (r : Rep m C) (hn : (chain m C key).length < fuel) :
    wp Never (hashmapRemove fuel key) (fun b t => t.size = m.size ∧
      Rep t (Function.update C (hashFunction key m.size) (erase key (chain m C key))) ∧
      (b = 0 ↔ (lookup key (chain m C key)).isSome)) m := by
  have hi := r.hash_lt key
  have hsub : (erase key (chain m C key)).Sublist (chain m C key) := List.eraseP_sublist
  rw [hashmapRemove, wp_bind, wp_index]
  have hw : wp Never (removeFrom key fuel (.bucket (hashFunction key m.size))) _ m :=
    wp_removeFrom (r.cells _ hi) (r.nodup _ hi) hi (fun b hb => by cases hb) hn
  apply wp_mono hw
  rintro b t ⟨ht, hb⟩
  refine ⟨ht.size_eq, r.change hi ht.size_eq ht.cells ?_ ?_ ?_ ?_ ?_, hb⟩
  · exact (hsub.map Prod.fst).nodup (r.nodup _ hi)
  · exact fun j hj => ht.entry_eq j fun he => hj (Slot.bucket.inj he).symm
  · exact fun a ha _ => ht.heap_eq a ha Slot.noConfusion
  · exact fun a ha => Or.inl ((hsub.map Prod.fst).subset ha)
  · exact fun c hc => r.hashed _ hi c (hsub.subset hc)

theorem wp_hashmapUpdate (r : Rep m C) (hn : (chain m C key).length ≤ fuel) :
    wp Never (hashmapUpdate fuel key value) (fun _ t => t.size = m.size ∧
      Rep t (Function.update C (hashFunction key m.size) (replace key value (chain m C key)))) m := by
  have hi := r.hash_lt key
  have hkeys : ∀ xs : List Cell, (∀ c ∈ xs, hashFunction c.2.1 m.size = hashFunction key m.size) →
      ∀ c ∈ replace key value xs, hashFunction c.2.1 m.size = hashFunction key m.size := by
    intro xs
    induction xs with
    | nil => exact fun _ c hc => absurd hc List.not_mem_nil
    | cons d xs ih =>
      intro h c hc
      rw [replace] at hc
      split at hc
      · rcases List.mem_cons.mp hc with rfl | hc
        · exact h d (by simp)
        · exact h c (List.mem_cons_of_mem _ hc)
      · rcases List.mem_cons.mp hc with rfl | hc
        · exact h d (by simp)
        · exact ih (fun c hc => h c (List.mem_cons_of_mem _ hc)) c hc
  rw [hashmapUpdate, wp_bind, wp_index, wp_bind, wp_load (show Slot.Valid m (.bucket _) from hi),
    wp_bind]
  apply wp_mono (wp_findEntry (r.cells _ hi) hn)
  rintro p t ⟨rfl, hx, hp⟩
  have hnd : (addrs (replace key value (chain t C key))).Nodup := by
    rw [addrs_replace]
    exact r.nodup _ hi
  have hy : ∀ a ∈ addrs (replace key value (chain t C key)),
      a ∈ addrs (chain t C key) ∨ t.heap a = none := by
    intro a ha
    rw [addrs_replace] at ha
    exact Or.inl ha
  cases p with
  | none =>
    have hl : lookup key (chain t C key) = none := hp.symm
    refine ⟨rfl, r.change hi rfl ?_ hnd (fun _ _ => rfl) (fun _ _ _ => rfl) hy
      (hkeys _ (r.hashed _ hi))⟩
    rw [replace_of_lookup_none hl]
    exact r.cells _ hi
  | some p =>
    obtain ⟨e, x⟩ := p
    have hl : lookup key (chain t C key) = some (e, x.key, x.value) := hp.symm
    have he : e ∈ addrs (chain t C key) := List.mem_map.mpr ⟨_, (mem_of_lookup hl).1, rfl⟩
    simp only [wp_bind, setEntry, wp_modify, wp_pure]
    refine ⟨trivial, r.change hi rfl ?_ hnd (fun _ _ => rfl) ?_ hy (hkeys _ (r.hashed _ hi))⟩
    · exact (r.cells _ hi).replace (r.nodup _ hi) hl (hx e x rfl)
    · intro b hb _
      have hbe : b ≠ e := fun heq => hb (heq ▸ he)
      exact Function.update_of_ne hbe ..

end Functions

/-! ## The finite map of a chain -/

def valueOf (key : Word) (xs : List Cell) : Option Word := (lookup key xs).map fun c => c.2.2

def keys (xs : List Cell) : List Word := xs.map fun c => c.2.1

section Values
variable {xs : List Cell} {a : Addr} {key k v value : Word}

@[simp] theorem valueOf_cons :
    valueOf key ((a, k, v) :: xs) = if key = k then some v else valueOf key xs := by
  rw [valueOf, lookup_cons]
  split <;> rfl

theorem valueOf_isSome : (valueOf key xs).isSome = (lookup key xs).isSome := Option.isSome_map ..

theorem valueOf_eq_none : valueOf key xs = none ↔ key ∉ keys xs := by
  induction xs with
  | nil => simp [valueOf, lookup, keys]
  | cons c xs ih =>
    obtain ⟨a, k, v⟩ := c
    rw [valueOf_cons, keys, List.map_cons, List.mem_cons, not_or]
    by_cases hk : key = k
    · simp [hk]
    · rw [if_neg hk, ih]
      exact ⟨fun h => ⟨hk, h⟩, fun h => h.2⟩

theorem valueOf_append (h : valueOf key xs = none) :
    valueOf k (xs ++ [(a, key, value)]) = if k = key then some value else valueOf k xs := by
  induction xs with
  | nil => rw [List.nil_append, valueOf_cons]
  | cons c xs ih =>
    obtain ⟨b, k', v'⟩ := c
    rw [valueOf_cons] at h
    rw [List.cons_append, valueOf_cons, valueOf_cons]
    split at h
    · cases h
    · rename_i hk
      rw [ih h]
      by_cases hkk : k = k'
      · have hne : k ≠ key := fun he => hk (he.symm.trans hkk)
        simp [hkk, hkk ▸ hne]
      · simp [hkk]

theorem valueOf_erase (h : (keys xs).Nodup) :
    valueOf k (erase key xs) = if k = key then none else valueOf k xs := by
  induction xs with
  | nil =>
    split <;> rfl
  | cons c xs ih =>
    obtain ⟨b, k', v'⟩ := c
    obtain ⟨hm, hd⟩ := List.nodup_cons.mp h
    rw [erase_cons]
    by_cases hk : key = k'
    · rw [if_pos hk, valueOf_cons]
      by_cases hkk : k = key
      · rw [if_pos hkk, hkk, hk]
        exact valueOf_eq_none.mpr hm
      · have hne : k ≠ k' := fun he => hkk (he.trans hk.symm)
        rw [if_neg hkk, if_neg hne]
    · rw [if_neg hk, valueOf_cons, valueOf_cons, ih hd]
      by_cases hkk : k = k'
      · have hne : k ≠ key := fun he => hk (he.symm.trans hkk)
        rw [if_pos hkk, if_neg hne, if_pos hkk]
      · rw [if_neg hkk, if_neg hkk]

theorem valueOf_replace : valueOf k (replace key value xs) =
    if k = key then (valueOf k xs).map fun _ => value else valueOf k xs := by
  induction xs with
  | nil =>
    split <;> rfl
  | cons c xs ih =>
    obtain ⟨b, k', v'⟩ := c
    rw [replace, valueOf_cons]
    by_cases hk : key = k'
    · rw [if_pos hk, valueOf_cons]
      by_cases hkk : k = k'
      · simp [hkk, hk]
      · have hne : k ≠ key := fun he => hkk (he.trans hk)
        simp [hkk, hne]
    · rw [if_neg hk, valueOf_cons, ih]
      by_cases hkk : k = k'
      · have hne : k ≠ key := fun he => hk (he.symm.trans hkk)
        simp [hkk, hkk ▸ hne]
      · simp [hkk]

theorem keys_replace : keys (replace key value xs) = keys xs := by
  induction xs with
  | nil => rfl
  | cons c xs ih =>
    obtain ⟨b, k', v'⟩ := c
    rw [replace]
    split
    · rfl
    · rw [keys, List.map_cons, ← keys, ih]
      rfl

theorem length_replace : (replace key value xs).length = xs.length := by
  have h := congrArg List.length (addrs_replace key value xs)
  rwa [addrs, addrs, List.length_map, List.length_map] at h

end Values

/-! ## Runs -/

/-- The present keys with their values. -/
abbrev Spec := Word → Option Word

inductive Op where
  | set (key value : Word)
  | update (key value : Word)
  | remove (key : Word)

def Op.act (s : Spec) : Op → Spec
  | set key value => Function.update s key (some value)
  | update key value => Function.update s key ((s key).map fun _ => value)
  | remove key => Function.update s key none

def after (s : Spec) (ops : List Op) : Spec := ops.foldl Op.act s

/-- `malloc` succeeds, with any address that is not in use. -/
def Step (fuel : Nat) (m : Hashmap) : Op → Hashmap → Prop
  | .set key value, m' => ∃ a r, m.heap a = none ∧
      hashmapSet fuel (some a) key value m = .ok (r, m')
  | .update key value, m' => ∃ r, hashmapUpdate fuel key value m = .ok (r, m')
  | .remove key, m' => ∃ r, hashmapRemove fuel key m = .ok (r, m')

/-- Only absent keys are set. -/
def SetsAbsent : Spec → List Op → Prop
  | _, [] => True
  | s, op :: ops => (∀ key value, op = .set key value → s key = none) ∧ SetsAbsent (op.act s) ops

/-- The map holds `s`, with at most `n` entries in a bucket. -/
def Holds (n : Nat) (m : Hashmap) (s : Spec) : Prop :=
  ∃ C, Rep m C ∧ (∀ i, i < m.size → (keys (C i)).Nodup ∧ (C i).length ≤ n) ∧
    ∀ key, s key = valueOf key (chain m C key)

section Runs
variable {m m' : Hashmap} {s : Spec} {n fuel size : Nat} {op : Op} {ops : List Op}

theorem Holds.init (h : 0 < size) : Holds 0 (hashmapInit size) fun _ => none :=
  ⟨fun _ => [], Rep.init h, fun _ _ => ⟨List.nodup_nil, Nat.le_refl _⟩, fun _ => rfl⟩

/-- A key's bucket is replaced. -/
theorem Holds.change {C : Nat → List Cell} {key : Word} {ys : List Cell}
    (hs : m'.size = m.size) (r : Rep m' (Function.update C (hashFunction key m.size) ys))
    (hC : ∀ i, i < m.size → (keys (C i)).Nodup ∧ (C i).length ≤ n)
    (hys : (keys ys).Nodup ∧ ys.length ≤ n + 1)
    (hv : ∀ k, hashFunction k m.size = hashFunction key m.size →
      op.act s k = valueOf k ys)
    (ho : ∀ k, hashFunction k m.size ≠ hashFunction key m.size →
      op.act s k = valueOf k (chain m C k)) : Holds (n + 1) m' (op.act s) := by
  refine ⟨_, r, ?_, ?_⟩
  · intro i hi
    rw [hs] at hi
    by_cases hk : i = hashFunction key m.size
    · rw [hk, Function.update_self]
      exact hys
    · rw [Function.update_of_ne hk]
      exact ⟨(hC i hi).1, Nat.le_succ_of_le (hC i hi).2⟩
  · intro k
    rw [chain, hs]
    by_cases hk : hashFunction k m.size = hashFunction key m.size
    · rw [hk, Function.update_self]
      exact hv k hk
    · rw [Function.update_of_ne hk]
      exact ho k hk

theorem chain_bound {C : Nat → List Cell} (r : Rep m C)
    (hC : ∀ i, i < m.size → (keys (C i)).Nodup ∧ (C i).length ≤ n) (key : Word) :
    (keys (chain m C key)).Nodup ∧ (chain m C key).length ≤ n := hC _ (r.hash_lt key)

/-- One operation. -/
theorem Holds.step (h : Holds n m s) (hst : Step fuel m op m') (hn : n < fuel)
    (ha : ∀ key value, op = .set key value → s key = none) : Holds (n + 1) m' (op.act s) := by
  obtain ⟨C, r, hC, hs⟩ := h
  cases op with
  | set key value =>
    obtain ⟨a, b, hfree, hrun⟩ := hst
    obtain ⟨hd, hl⟩ := chain_bound r hC key
    have hnone : valueOf key (chain m C key) = none := (hs key).symm.trans (ha key value rfl)
    obtain ⟨hsize, hr⟩ := wp_ok (wp_hashmapSet r hfree
      (Nat.le_trans hl (Nat.le_of_lt hn))) hrun
    refine Holds.change hsize hr hC ⟨?_, by simpa using hl⟩ ?_ ?_
    · rw [keys, List.map_append]
      refine List.Nodup.append hd (List.nodup_singleton _) fun k hk hm => ?_
      obtain rfl : k = key := List.mem_singleton.mp hm
      exact valueOf_eq_none.mp hnone hk
    · intro k hk
      rw [valueOf_append hnone, Op.act, Function.update_apply, hs k, chain, chain, hk]
    · intro k hk
      have hne : k ≠ key := fun he => hk (by rw [he])
      rw [Op.act, Function.update_of_ne hne, hs k]
  | update key value =>
    obtain ⟨b, hrun⟩ := hst
    obtain ⟨hd, hl⟩ := chain_bound r hC key
    obtain ⟨hsize, hr⟩ := wp_ok (wp_hashmapUpdate r
      (Nat.le_trans hl (Nat.le_of_lt hn))) hrun
    refine Holds.change hsize hr hC ⟨?_, ?_⟩ ?_ ?_
    · rw [keys_replace]
      exact hd
    · rw [length_replace]
      exact Nat.le_succ_of_le hl
    · intro k hk
      rw [valueOf_replace, Op.act, Function.update_apply, hs k, hs key, chain, chain, hk]
      by_cases hkk : k = key
      · rw [if_pos hkk, if_pos hkk, hkk]
      · rw [if_neg hkk, if_neg hkk]
    · intro k hk
      have hne : k ≠ key := fun he => hk (by rw [he])
      rw [Op.act, Function.update_of_ne hne, hs k]
  | remove key =>
    obtain ⟨b, hrun⟩ := hst
    obtain ⟨hd, hl⟩ := chain_bound r hC key
    obtain ⟨hsize, hr, -⟩ := wp_ok (wp_hashmapRemove r (Nat.lt_of_le_of_lt hl hn)) hrun
    have hsub : (erase key (chain m C key)).Sublist (chain m C key) := List.eraseP_sublist
    refine Holds.change hsize hr hC ⟨?_, ?_⟩ ?_ ?_
    · exact (hsub.map _).nodup hd
    · exact Nat.le_trans hsub.length_le (Nat.le_succ_of_le hl)
    · intro k hk
      rw [valueOf_erase hd, Op.act, Function.update_apply, hs k, chain, chain, hk]
    · intro k hk
      have hne : k ≠ key := fun he => hk (by rw [he])
      rw [Op.act, Function.update_of_ne hne, hs k]

theorem size_of_step (h : Holds n m s) (hst : Step fuel m op m') (hn : n < fuel) :
    m'.size = m.size := by
  obtain ⟨C, r, hC, -⟩ := h
  cases op with
  | set key value =>
    obtain ⟨a, b, hfree, hrun⟩ := hst
    have hl := (chain_bound r hC key).2
    exact (wp_ok (wp_hashmapSet r hfree
      (Nat.le_trans hl (Nat.le_of_lt hn))) hrun).1
  | update key value =>
    obtain ⟨b, hrun⟩ := hst
    have hl := (chain_bound r hC key).2
    exact (wp_ok (wp_hashmapUpdate r
      (Nat.le_trans hl (Nat.le_of_lt hn))) hrun).1
  | remove key =>
    obtain ⟨b, hrun⟩ := hst
    have hl := (chain_bound r hC key).2
    exact (wp_ok (wp_hashmapRemove r (Nat.lt_of_le_of_lt hl hn)) hrun).1

theorem Holds.run (h : Holds n m s) (hrun : Run (Step fuel) m ops m')
    (hn : n + ops.length ≤ fuel) (ha : SetsAbsent s ops) :
    Holds (n + ops.length) m' (after s ops) ∧ m'.size = m.size := by
  induction hrun generalizing n s with
  | nil => exact ⟨h, rfl⟩
  | @cons m t u op ops hst _ ih =>
    have hlen : n + (op :: ops).length = n + 1 + ops.length := by
      rw [List.length_cons]
      omega
    rw [hlen] at hn ⊢
    have hlt : n < fuel := by omega
    obtain ⟨hh, hs⟩ := ih (h.step hst hlt ha.1) hn ha.2
    exact ⟨hh, hs.trans (size_of_step h hst hlt)⟩

/-! ## What the reading functions return -/

/-- `key` is alone in its bucket. -/
def Alone (size : Nat) (s : Spec) (key : Word) : Prop :=
  (s key).isSome ∧ ∀ k, hashFunction k size = hashFunction key size → (s k).isSome → k = key

theorem Holds.has (h : Holds n m s) (hn : n ≤ fuel) (key : Word) :
    hashmapHas fuel key m = .ok ((s key).isSome, m) := by
  obtain ⟨C, r, hC, hs⟩ := h
  have hl := (chain_bound r hC key).2
  obtain ⟨b, t, hrun, rfl, rfl⟩ := ok_of_wp (wp_hashmapHas r (Nat.le_trans hl hn))
  rw [hrun, hs key, valueOf_isSome]

theorem Holds.isEmpty (h : Holds n m s) :
    ∃ b, hashmapIsEmpty m = .ok (b, m) ∧ (b = true ↔ ∀ key, s key = none) := by
  obtain ⟨C, r, hC, hs⟩ := h
  refine ⟨_, rfl, ?_⟩
  rw [List.all_eq_true]
  constructor
  · intro ho key
    have hi := r.hash_lt key
    have he := ho _ (List.mem_range.mpr hi)
    have hnil := (r.cells _ hi).eq_none_iff.mp (Option.isNone_iff_eq_none.mp he)
    rw [hs key, chain, hnil]
    rfl
  · intro hk i hi
    have hi := List.mem_range.mp hi
    rw [Option.isNone_iff_eq_none, (r.cells i hi).eq_none_iff, List.eq_nil_iff_forall_not_mem]
    intro c hc
    have hnone := hk c.2.1
    rw [hs, chain, r.hashed i hi c hc, valueOf_eq_none] at hnone
    exact hnone (List.mem_map_of_mem hc)

/-- An absent key gets the value of a key that is alone in its bucket. -/
theorem Holds.get (h : Holds n m s) (hn : n ≤ fuel) (key : Word) :
    ∃ v, hashmapGet fuel key m = .ok (v, m) ∧ (v = (s key).getD NULL ↔ ((s key).isSome ∨
      ∀ k, hashFunction k m.size = hashFunction key m.size → Alone m.size s k →
        s k = some NULL)) := by
  obtain ⟨C, r, hC, hs⟩ := h
  obtain ⟨hd, hl⟩ := chain_bound r hC key
  obtain ⟨v, t, hrun, rfl, hv⟩ := ok_of_wp (wp_hashmapGet r (Nat.le_trans hl hn))
  refine ⟨v, hrun, ?_⟩
  have hbucket : ∀ k, hashFunction k t.size = hashFunction key t.size →
      s k = valueOf k (chain t C key) := by
    intro k hk
    rw [hs k, chain, chain, hk]
  have hhash : ∀ c ∈ chain t C key, hashFunction c.2.1 t.size = hashFunction key t.size :=
    r.hashed _ (r.hash_lt key)
  rw [hbucket key rfl]
  subst hv
  generalize chain t C key = xs at hd hbucket hhash ⊢
  match xs with
  | [] =>
    refine ⟨fun _ => Or.inr fun k hk ha => ?_, fun _ => rfl⟩
    have := ha.1
    rw [hbucket k hk] at this
    cases this
  | [(a, k, v)] =>
    have hk := hhash (a, k, v) (by simp)
    have hsk : s k = some v := by
      rw [hbucket k hk]
      simp
    have halone : Alone t.size s k := by
      refine ⟨by simp [hsk], fun k' hk' hs' => ?_⟩
      rw [hbucket k' (hk'.trans hk)] at hs'
      by_contra hne
      simp [hne, valueOf, lookup] at hs'
    by_cases hkk : key = k
    · simp [getFrom, hkk]
    · have hnone : valueOf key [(a, k, v)] = none := by simp [hkk, valueOf, lookup]
      rw [hnone]
      constructor
      · intro hv
        refine Or.inr fun k' hk' ha' => ?_
        obtain rfl : k = k' := ha'.2 k (hk.trans hk'.symm) halone.1
        exact hsk.trans (congrArg some hv)
      · rintro (hc | hc)
        · cases hc
        · exact Option.some.inj (hsk.symm.trans (hc k hk halone))
  | (a, k, v) :: (a', k', v') :: xs =>
    have hg : getFrom key ((a, k, v) :: (a', k', v') :: xs) =
        (valueOf key ((a, k, v) :: (a', k', v') :: xs)).getD NULL := rfl
    rw [hg]
    refine ⟨fun _ => Or.inr fun k'' hk'' ha => ?_, fun _ => rfl⟩
    have hk := hhash (a, k, v) (by simp)
    have hk' := hhash (a', k', v') (by simp)
    have hne : k ≠ k' := by
      rintro rfl
      exact (List.nodup_cons.mp hd).1 (by simp)
    have h1 : k = k'' := ha.2 k (hk.trans hk''.symm) (by simp [hbucket k hk])
    have h2 : k' = k'' := ha.2 k' (hk'.trans hk''.symm) (by simp [hbucket k' hk', hne.symm])
    exact absurd (h1.trans h2.symm) hne

/-- What is got is `NULL` or the value of some key, and of the key itself if that is present. -/
theorem Holds.get_mem (h : Holds n m s) (hn : n ≤ fuel) (key : Word) :
    ∃ v, hashmapGet fuel key m = .ok (v, m) ∧ (v = NULL ∨ ∃ k, s k = some v) ∧
      ∀ w, s key = some w → v = w := by
  obtain ⟨v, hrun, hv⟩ := h.get hn key
  refine ⟨v, hrun, ?_, fun w hw => ?_⟩
  · obtain ⟨C, r, hC, hs⟩ := h
    obtain ⟨hd, hl⟩ := chain_bound r hC key
    have hfrom := (wp_ok (wp_hashmapGet r (Nat.le_trans hl hn)) hrun).2
    by_cases hone : ∃ c, chain m C key = [c]
    · obtain ⟨⟨a, k, v'⟩, hc⟩ := hone
      have hm : (a, k, v') ∈ chain m C key := by
        rw [hc]
        exact List.mem_singleton_self _
      have hk : chain m C k = chain m C key := by
        rw [chain, r.hashed _ (r.hash_lt key) _ hm, chain]
      rw [hfrom, hc]
      refine Or.inr ⟨k, ?_⟩
      rw [hs k, hk, hc, valueOf_cons, if_pos rfl]
      rfl
    · have hval : v = (valueOf key (chain m C key)).getD NULL := by
        rw [hfrom]
        match chain m C key, hone with
        | [], _ => rfl
        | [c], hone => exact absurd ⟨c, rfl⟩ hone
        | _ :: _ :: _, _ => rfl
      cases ho : valueOf key (chain m C key) with
      | none => exact Or.inl (by rw [hval, ho]; rfl)
      | some w => exact Or.inr ⟨key, by rw [hs key, hval, ho]; rfl⟩
  · rw [hv.mpr (Or.inl (by rw [hw]; rfl)), hw]
    rfl

/-- Nothing stops an operation. -/
theorem Holds.returns (h : Holds n m s) (hn : n < fuel) (key value : Word) :
    (∀ a, m.heap a = none → ∃ r m', hashmapSet fuel (some a) key value m = .ok (r, m')) ∧
      (∃ r m', hashmapUpdate fuel key value m = .ok (r, m')) ∧
      ∃ r m', hashmapRemove fuel key m = .ok (r, m') ∧ (r = 0 ↔ (s key).isSome) := by
  obtain ⟨C, r, hC, hs⟩ := h
  have hl := (chain_bound r hC key).2
  have hle := Nat.le_trans hl (Nat.le_of_lt hn)
  refine ⟨fun a ha => ?_, ?_, ?_⟩
  · obtain ⟨b, t, hrun, -⟩ := ok_of_wp
      (wp_hashmapSet r ha hle : wp Never (hashmapSet fuel (some a) key value) _ m)
    exact ⟨b, t, hrun⟩
  · obtain ⟨b, t, hrun, -⟩ := ok_of_wp
      (wp_hashmapUpdate r hle : wp Never (hashmapUpdate fuel key value) _ m)
    exact ⟨b, t, hrun⟩
  · obtain ⟨b, t, hrun, -, -, hb⟩ := ok_of_wp (wp_hashmapRemove r (Nat.lt_of_le_of_lt hl hn))
    refine ⟨b, t, hrun, hb.trans ?_⟩
    rw [hs key, valueOf_isSome]

/-- In a run that sets absent keys only, the map is the finite map, but for `hashmap_get` of an
absent key whose bucket holds one other key. -/
theorem hashmap_refines (hsize : 0 < size) (hrun : Run (Step fuel) (hashmapInit size) ops m)
    (hfuel : ops.length < fuel) (ha : SetsAbsent (fun _ => none) ops) :
    (∀ key, hashmapHas fuel key m = .ok ((after (fun _ => none) ops key).isSome, m)) ∧
    (∃ b, hashmapIsEmpty m = .ok (b, m) ∧
      (b = true ↔ ∀ key, after (fun _ => none) ops key = none)) ∧
    (∀ key, ∃ v, hashmapGet fuel key m = .ok (v, m) ∧
      (v = (after (fun _ => none) ops key).getD NULL ↔
        ((after (fun _ => none) ops key).isSome ∨
          ∀ k, hashFunction k size = hashFunction key size →
            Alone size (after (fun _ => none) ops) k →
            after (fun _ => none) ops k = some NULL))) ∧
    ∀ key value,
      (∀ a, m.heap a = none → ∃ r m', hashmapSet fuel (some a) key value m = .ok (r, m')) ∧
      (∃ r m', hashmapUpdate fuel key value m = .ok (r, m')) ∧
      ∃ r m', hashmapRemove fuel key m = .ok (r, m') ∧
        (r = 0 ↔ (after (fun _ => none) ops key).isSome) := by
  have hlen : 0 + ops.length ≤ fuel := by omega
  obtain ⟨h, hs⟩ := (Holds.init hsize).run hrun hlen ha
  have hlt : 0 + ops.length < fuel := by omega
  have hget := h.get hlen
  rw [hs] at hget
  exact ⟨h.has hlen, h.isEmpty, hget, h.returns hlt⟩

/-- Keys 1 and 9 in one bucket; the first is removed. -/
theorem hashmap_refines_two : ∃ m, Run (Step 4) (hashmapInit 8)
    [.set 1 5, .set 9 6, .remove 1] m ∧ hashmapHas 4 1 m = .ok (false, m) ∧
    hashmapHas 4 9 m = .ok (true, m) := by
  have ha : SetsAbsent (fun _ => none) [.set 1 5, .set 9 6, .remove 1] := by
    refine ⟨?_, ?_, ?_, trivial⟩
    · exact fun _ _ _ => rfl
    · intro key value he
      cases he
      rfl
    · exact fun _ _ he => by cases he
  have hrun : ∃ m, Run (Step 4) (hashmapInit 8) [.set 1 5, .set 9 6, .remove 1] m :=
    ⟨_, .cons ⟨0, _, rfl, rfl⟩ (.cons ⟨1, _, rfl, rfl⟩ (.cons ⟨_, rfl⟩ (.nil _)))⟩
  obtain ⟨m, hm⟩ := hrun
  have h := (hashmap_refines (by decide) hm (by decide) ha).1
  exact ⟨m, hm, h 1, h 9⟩

/-- An absent key that is found, and a key that is set twice: the first value stays, and one removal
does not remove it. -/
theorem hashmap_not_map :
    (∃ m, Run (Step 4) (hashmapInit 8) [.set 1 5] m ∧
      after (fun _ => none) [.set 1 5] 9 = none ∧ hashmapGet 4 9 m = .ok (5, m)) ∧
    (∃ m, Run (Step 4) (hashmapInit 8) [.set 1 5, .set 1 6] m ∧
      after (fun _ => none) [.set 1 5, .set 1 6] 1 = some 6 ∧ hashmapGet 4 1 m = .ok (5, m)) ∧
    ∃ m, Run (Step 4) (hashmapInit 8) [.set 1 5, .set 1 6, .remove 1] m ∧
      after (fun _ => none) [.set 1 5, .set 1 6, .remove 1] 1 = none ∧
      hashmapHas 4 1 m = .ok (true, m) := by
  refine ⟨⟨_, .cons ⟨0, _, rfl, rfl⟩ (.nil _), rfl, rfl⟩,
    ⟨_, .cons ⟨0, _, rfl, rfl⟩ (.cons ⟨1, _, rfl, rfl⟩ (.nil _)), rfl, rfl⟩,
    ⟨_, .cons ⟨0, _, rfl, rfl⟩ (.cons ⟨1, _, rfl, rfl⟩ (.cons ⟨_, rfl⟩ (.nil _))), rfl, rfl⟩⟩

end Runs

end Frog.HashMap
