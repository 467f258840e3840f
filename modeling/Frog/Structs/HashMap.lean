import Frog.Lib.Prog
import Mathlib.Data.List.Nodup
import Mathlib.Data.BitVec

/-!
# The hash map

`hashmap.c`. A bucket is a chain of entries on the heap; `Cells` reads a chain off the heap, and
every function has one lemma that says what it does to the chain of the key.
-/

set_option autoImplicit false

namespace Frog.HashMap

open Prog

/-- A key or a value, a `void *`. -/
abbrev Word := BitVec 32

def NULL : Word := 0

abbrev Addr := Nat

structure Entry where
  key : Word
  value : Word
  next : Option Addr

structure Hashmap where
  size : Nat
  entry : Nat → Option Addr
  heap : Addr → Option Entry

/-- An index outside of the table, an entry that is not there, or a loop cut short. -/
inductive Fault where
  | index | dangling | fuel
  deriving DecidableEq

abbrev M := Prog Fault Hashmap

/-- The mixed key is dropped, the key itself is reduced. -/
def hashFunction (key : Word) (size : Nat) : Nat := key.toNat % size

def hashIntCompare (source target : Word) : Bool := source = target

def hashmapInit (size : Nat) : Hashmap := { size, entry := fun _ => none, heap := fun _ => none }

/-- A `struct hashmap_entry **`. -/
inductive Slot where
  | bucket (i : Nat)
  | next (e : Addr)

def entryAt (e : Addr) : M Entry := do
  let m ← get
  need (m.heap e) .dangling

def setEntry (e : Addr) (x : Option Entry) : M Unit :=
  modify fun m => { m with heap := Function.update m.heap e x }

def Slot.load : Slot → M (Option Addr)
  | bucket i => do
    let m ← get
    check (i < m.size) .index
    pure (m.entry i)
  | next e => do
    let x ← entryAt e
    pure x.next

def Slot.store (o : Option Addr) : Slot → M Unit
  | bucket i => do
    let m ← get
    check (i < m.size) .index
    modify fun m => { m with entry := Function.update m.entry i o }
  | next e => do
    let x ← entryAt e
    setEntry e (some { x with next := o })

/-- The bucket of a key. -/
def index (key : Word) : M Nat := do
  let m ← get
  pure (hashFunction key m.size)

/-- `while (entry->next) entry = entry->next`. -/
def lastEntry : Nat → Addr → M Addr
  | 0, _ => stop .fuel
  | n + 1, e => do
    let x ← entryAt e
    match x.next with
    | none => pure e
    | some e' => lastEntry n e'

/-- `fresh` is what `malloc` returns. -/
def hashmapSet (fuel : Nat) (fresh : Option Addr) (key value : Word) : M (Option Addr) := do
  let i ← index key
  match ← (Slot.bucket i).load with
  | none =>
    match fresh with
    | none => pure none
    | some a =>
      setEntry a (some ⟨key, value, none⟩)
      (Slot.bucket i).store (some a)
      pure (some a)
  | some e =>
    let a ← need fresh .dangling
    setEntry a (some ⟨key, value, none⟩)
    let z ← lastEntry fuel e
    (Slot.next z).store (some a)
    pure (some z)

/-- The loop of `hashmap_has`, `hashmap_get` and `hashmap_update`: the first entry with the key. -/
def findEntry (key : Word) : Nat → Option Addr → M (Option (Addr × Entry))
  | _, none => pure none
  | 0, some _ => stop .fuel
  | n + 1, some e => do
    let x ← entryAt e
    if hashIntCompare key x.key then pure (some (e, x)) else findEntry key n x.next

def hashmapHas (fuel : Nat) (key : Word) : M Bool := do
  let i ← index key
  let o ← (Slot.bucket i).load
  let r ← findEntry key fuel o
  pure r.isSome

def hashmapIsEmpty : M Bool := do
  let m ← get
  pure ((List.range m.size).all fun i => (m.entry i).isNone)

/-- The only entry of a bucket is not compared with the key. -/
def hashmapGet (fuel : Nat) (key : Word) : M Word := do
  let i ← index key
  match ← (Slot.bucket i).load with
  | none => pure NULL
  | some e =>
    let x ← entryAt e
    if x.next = none then pure x.value
    else
      match ← findEntry key fuel (some e) with
      | some (_, y) => pure y.value
      | none => pure NULL

/-- The loop of `hashmap_remove`; `head` is the place the entry is linked from. -/
def removeFrom (key : Word) : Nat → Slot → M Int
  | 0, _ => stop .fuel
  | n + 1, head => do
    match ← head.load with
    | none => pure (-1)
    | some e =>
      let x ← entryAt e
      if hashIntCompare key x.key then
        setEntry e none
        head.store x.next
        pure 0
      else removeFrom key n (.next e)

def hashmapRemove (fuel : Nat) (key : Word) : M Int := do
  let i ← index key
  removeFrom key fuel (.bucket i)

def hashmapUpdate (fuel : Nat) (key value : Word) : M Word := do
  let i ← index key
  let o ← (Slot.bucket i).load
  match ← findEntry key fuel o with
  | some (e, x) =>
    setEntry e (some { x with value })
    pure NULL
  | none => pure NULL

/-! ## Chains -/

/-- An entry: where it is, its key and its value. -/
abbrev Cell := Addr × Word × Word

def Cells (heap : Addr → Option Entry) : Option Addr → List Cell → Prop
  | o, [] => o = none
  | o, (a, k, v) :: xs => o = some a ∧ ∃ n, heap a = some ⟨k, v, n⟩ ∧ Cells heap n xs

def addrs (xs : List Cell) : List Addr := xs.map Prod.fst

namespace Cells

variable {heap heap' : Addr → Option Entry} {o : Option Addr} {xs : List Cell} {a : Addr}
  {k v : Word}

theorem congr (h : Cells heap o xs) (hk : ∀ a ∈ addrs xs, heap' a = heap a) :
    Cells heap' o xs := by
  induction xs generalizing o with
  | nil => exact h
  | cons c xs ih =>
    obtain ⟨rfl, n, hn, hc⟩ := h
    refine ⟨rfl, n, (hk _ (by simp [addrs])).trans hn, ih hc ?_⟩
    exact fun a ha => hk a (List.mem_cons_of_mem _ ha)

theorem live (h : Cells heap o xs) (ha : a ∈ addrs xs) : heap a ≠ none := by
  induction xs generalizing o with
  | nil => cases ha
  | cons c xs ih =>
    obtain ⟨-, n, hn, hc⟩ := h
    rcases List.mem_cons.mp ha with rfl | ha
    · rw [hn]
      exact Option.some_ne_none _
    · exact ih hc ha

theorem eq_none_iff (h : Cells heap o xs) : o = none ↔ xs = [] := by
  cases xs with
  | nil => exact ⟨fun _ => rfl, fun _ => h⟩
  | cons c xs =>
    obtain ⟨rfl, -⟩ := h
    exact ⟨fun he => absurd he (Option.some_ne_none _), fun he => absurd he (List.cons_ne_nil _ _)⟩

/-- The last entry is linked to a new one. -/
theorem append {z : Addr} {k' v' : Word} (h : Cells heap o (xs ++ [(z, k', v')]))
    (hd : (addrs (xs ++ [(z, k', v')])).Nodup) (ha : a ∉ addrs (xs ++ [(z, k', v')]))
    (hn : heap a = some ⟨k, v, none⟩) :
    Cells (Function.update heap z (some ⟨k', v', some a⟩)) o
      (xs ++ [(z, k', v')] ++ [(a, k, v)]) := by
  induction xs generalizing o with
  | nil =>
    have haz : a ≠ z := fun he => ha (by simp [addrs, he])
    obtain ⟨rfl, -⟩ := h
    exact ⟨rfl, some a, by simp, rfl, none, by simp [haz, hn], rfl⟩
  | cons c xs ih =>
    obtain ⟨rfl, n, hc, hx⟩ := h
    obtain ⟨hm, hd'⟩ := List.nodup_cons.mp hd
    have hcz : c.1 ≠ z := fun he => hm (by simp [he])
    refine ⟨rfl, n, (Function.update_of_ne hcz ..).trans hc, ih hx hd' ?_⟩
    exact fun hx => ha (List.mem_cons_of_mem _ hx)

end Cells

/-- The first entry with the key gets the value. -/
def replace (key value : Word) : List Cell → List Cell
  | [] => []
  | (a, k, v) :: xs => if key = k then (a, k, value) :: xs else (a, k, v) :: replace key value xs

@[simp] theorem addrs_replace (key value : Word) (xs : List Cell) :
    addrs (replace key value xs) = addrs xs := by
  induction xs with
  | nil => rfl
  | cons c xs ih =>
    rw [replace]
    split
    · rfl
    · simp [addrs] at ih ⊢
      exact ih

/-- The first entry with the key goes. -/
def erase (key : Word) (xs : List Cell) : List Cell := xs.eraseP fun c => key = c.2.1

def lookup (key : Word) (xs : List Cell) : Option Cell := xs.find? fun c => key = c.2.1

section Lookup
variable {heap : Addr → Option Entry} {o : Option Addr} {xs : List Cell} {a : Addr}
  {key k v value : Word}

@[simp] theorem lookup_cons :
    lookup key ((a, k, v) :: xs) = if key = k then some (a, k, v) else lookup key xs := by
  by_cases h : key = k <;> simp [lookup, h]

@[simp] theorem erase_cons :
    erase key ((a, k, v) :: xs) = if key = k then xs else (a, k, v) :: erase key xs := by
  by_cases h : key = k <;> simp [erase, h]

theorem replace_of_lookup_none (h : lookup key xs = none) : replace key value xs = xs := by
  induction xs with
  | nil => rfl
  | cons c xs ih =>
    obtain ⟨a, k, v⟩ := c
    rw [lookup_cons] at h
    rw [replace]
    split at h
    · cases h
    · rename_i hk
      rw [if_neg hk, ih h]

theorem mem_of_lookup {c : Cell} (h : lookup key xs = some c) : c ∈ xs ∧ c.2.1 = key := by
  have hp := List.find?_some h
  exact ⟨List.mem_of_find?_eq_some h, (of_decide_eq_true hp).symm⟩

/-- The value of the entry that is found is replaced. -/
theorem Cells.replace {x : Entry} (h : Cells heap o xs) (hd : (addrs xs).Nodup)
    (hl : lookup key xs = some (a, k, v)) (hx : heap a = some x) :
    Cells (Function.update heap a (some { x with value })) o (replace key value xs) := by
  induction xs generalizing o with
  | nil => cases hl
  | cons c xs ih =>
    obtain ⟨b, k', v'⟩ := c
    obtain ⟨rfl, n, hn, hc⟩ := h
    obtain ⟨hm, hd'⟩ := List.nodup_cons.mp hd
    rw [lookup_cons] at hl
    rw [HashMap.replace]
    by_cases hk : key = k'
    · rw [if_pos hk] at hl ⊢
      cases hl
      rw [hn] at hx
      cases hx
      refine ⟨rfl, n, by simp, hc.congr fun y hy => ?_⟩
      have hya : y ≠ a := fun he => hm (he ▸ hy)
      exact Function.update_of_ne hya ..
    · rw [if_neg hk] at hl ⊢
      have hba : b ≠ a := by
        rintro rfl
        exact hm (List.mem_map.mpr ⟨_, (mem_of_lookup hl).1, rfl⟩)
      exact ⟨rfl, n, (Function.update_of_ne hba ..).trans hn, ih hc hd' hl⟩

end Lookup

/-! ## The loops -/

section Loops
variable {m : Hashmap} {o : Option Addr} {xs : List Cell} {n : Nat} {key : Word}

/-- Nothing is left open. -/
def Never : Fault → Prop := fun _ => False

theorem wp_entryAt {e : Addr} {x : Entry} {Q : Entry → Hashmap → Prop} (h : m.heap e = some x) :
    wp Never (entryAt e) Q m ↔ Q x m := by
  simp [entryAt, h, need]

theorem wp_findEntry (h : Cells m.heap o xs) (hn : xs.length ≤ n) :
    wp Never (findEntry key n o) (fun r t => t = m ∧
      (∀ e x, r = some (e, x) → m.heap e = some x) ∧
      r.map (fun p => (p.1, p.2.key, p.2.value)) = lookup key xs) m := by
  induction xs generalizing o n with
  | nil =>
    obtain rfl : o = none := h
    rw [findEntry, wp_pure]
    exact ⟨rfl, fun _ _ he => (Option.some_ne_none _ he.symm).elim, rfl⟩
  | cons c xs ih =>
    obtain ⟨a, k, v⟩ := c
    obtain ⟨rfl, l, hl, hc⟩ := h
    obtain ⟨n, rfl⟩ := Nat.exists_eq_succ_of_ne_zero (Nat.ne_of_gt (Nat.zero_lt_of_lt hn))
    rw [findEntry, wp_bind, wp_entryAt hl, wp_ite, lookup_cons]
    constructor
    · intro hk
      have hk' : key = k := of_decide_eq_true hk
      rw [if_pos hk', wp_pure]
      refine ⟨rfl, ?_, rfl⟩
      intro e x he
      cases he
      exact hl
    · intro hk
      have hk' : key ≠ k := of_decide_eq_false (Bool.eq_false_of_not_eq_true hk)
      rw [if_neg hk']
      exact ih hc (Nat.le_of_succ_le_succ hn)

theorem wp_lastEntry {e : Addr} (h : Cells m.heap (some e) xs) (hn : xs.length ≤ n) :
    wp Never (lastEntry n e) (fun z t => t = m ∧
      ∃ us k v, xs = us ++ [(z, k, v)] ∧ m.heap z = some ⟨k, v, none⟩) m := by
  induction xs generalizing e n with
  | nil => cases h
  | cons c xs ih =>
    obtain ⟨a, k, v⟩ := c
    obtain ⟨he, l, hl, hc⟩ := h
    obtain rfl : e = a := Option.some.inj he
    obtain ⟨n, rfl⟩ := Nat.exists_eq_succ_of_ne_zero (Nat.ne_of_gt (Nat.zero_lt_of_lt hn))
    rw [lastEntry, wp_bind, wp_entryAt hl]
    cases l with
    | none =>
      obtain rfl : xs = [] := hc.eq_none_iff.mp rfl
      exact ⟨rfl, [], k, v, rfl, hl⟩
    | some e' =>
      apply wp_mono (ih hc (Nat.le_of_succ_le_succ hn))
      rintro z t ⟨rfl, us, k', v', rfl, hz⟩
      exact ⟨rfl, (e, k, v) :: us, k', v', rfl, hz⟩

/-- What a place holds. -/
def Slot.read (m : Hashmap) : Slot → Option Addr
  | bucket i => m.entry i
  | next e => (m.heap e).bind Entry.next

def Slot.Valid (m : Hashmap) : Slot → Prop
  | bucket i => i < m.size
  | next e => m.heap e ≠ none

def Slot.write (m : Hashmap) (o : Option Addr) : Slot → Hashmap
  | bucket i => { m with entry := Function.update m.entry i o }
  | next e => { m with
      heap := Function.update m.heap e ((m.heap e).map fun x => { x with next := o }) }

theorem wp_load {sl : Slot} {Q : Option Addr → Hashmap → Prop} (h : sl.Valid m) :
    wp Never sl.load Q m ↔ Q (sl.read m) m := by
  cases sl with
  | bucket i =>
    have hi : i < m.size := h
    simp [Slot.load, hi, Slot.read, Never]
  | next e =>
    obtain ⟨x, hx⟩ := Option.ne_none_iff_exists'.mp h
    rw [Slot.load, wp_bind, wp_entryAt hx, wp_pure, Slot.read, hx, Option.bind_some]

theorem wp_store {sl : Slot} {Q : Unit → Hashmap → Prop} (h : sl.Valid m) :
    wp Never (sl.store o) Q m ↔ Q () (sl.write m o) := by
  cases sl with
  | bucket i =>
    have hi : i < m.size := h
    simp [Slot.store, hi, Slot.write, Never]
  | next e =>
    obtain ⟨x, hx⟩ := Option.ne_none_iff_exists'.mp h
    rw [Slot.store, wp_bind, wp_entryAt hx, setEntry, wp_modify, Slot.write, hx, Option.map_some]

/-- The chain behind the place `sl` becomes `ys`; only its entries and the place are touched. -/
structure Relinked (sl : Slot) (xs : List Cell) (m m' : Hashmap) (ys : List Cell) : Prop where
  cells : Cells m'.heap (sl.read m') ys
  size_eq : m'.size = m.size
  entry_eq : ∀ i, sl ≠ .bucket i → m'.entry i = m.entry i
  heap_eq : ∀ a, a ∉ addrs xs → sl ≠ .next a → m'.heap a = m.heap a
  own : ∀ a x, sl = .next a → m.heap a = some x → ∃ l, m'.heap a = some { x with next := l }

/-- An entry that stays in front of the place that is changed. -/
theorem Relinked.cons {sl : Slot} {a : Addr} {x : Entry} {m' : Hashmap} {ys : List Cell}
    (r : Relinked (.next a) xs m m' ys) (hsl : sl.read m = some a)
    (hx : m.heap a = some x) (hne : ∀ b, sl = .next b → b ≠ a ∧ b ∉ addrs xs) :
    Relinked sl ((a, x.key, x.value) :: xs) m m' ((a, x.key, x.value) :: ys) := by
  obtain ⟨l, hl⟩ := r.own a x rfl hx
  have hcells := r.cells
  rw [Slot.read, hl, Option.bind_some] at hcells
  constructor
  · refine ⟨?_, l, hl, hcells⟩
    rw [← hsl]
    cases sl with
    | bucket i => exact r.entry_eq i Slot.noConfusion
    | next b =>
      obtain ⟨hba, hbx⟩ := hne b rfl
      rw [Slot.read, Slot.read, r.heap_eq b hbx fun he => hba (Slot.next.inj he).symm]
  · exact r.size_eq
  · exact fun i _ => r.entry_eq i Slot.noConfusion
  · intro b hb _
    refine r.heap_eq b (fun hm => hb (List.mem_cons_of_mem _ hm)) fun he => hb ?_
    simp [addrs, Slot.next.inj he]
  · rintro b y rfl hy
    obtain ⟨hba, hbx⟩ := hne b rfl
    exact ⟨y.next, (r.heap_eq b hbx fun he => hba (Slot.next.inj he).symm).trans hy⟩

/-- The first entry is unlinked from the place and freed. -/
theorem Relinked.head {sl : Slot} {a : Addr} {x : Entry} (hc : Cells m.heap x.next xs)
    (ha : a ∉ addrs xs) (hv : sl.Valid m)
    (hne : ∀ b, sl = .next b → b ≠ a ∧ b ∉ addrs xs) :
    Relinked sl ((a, x.key, x.value) :: xs) m
      (sl.write { m with heap := Function.update m.heap a none } x.next) xs := by
  have hfree : Cells (Function.update m.heap a none) x.next xs := by
    refine hc.congr fun b hb => ?_
    have hba : b ≠ a := fun he => ha (he ▸ hb)
    exact Function.update_of_ne hba ..
  cases sl with
  | bucket i =>
    constructor
    · simpa [Slot.write, Slot.read] using hfree
    · rfl
    · intro j hj
      have hji : j ≠ i := fun he => hj (by rw [he])
      exact Function.update_of_ne hji ..
    · intro b hb _
      have hba : b ≠ a := fun he => hb (by simp [addrs, he])
      exact Function.update_of_ne hba ..
    · intro b y he
      cases he
  | next e =>
    obtain ⟨hea, hex⟩ := hne e rfl
    obtain ⟨y, hy⟩ := Option.ne_none_iff_exists'.mp hv
    have hye : Function.update m.heap a none e = some y := (Function.update_of_ne hea ..).trans hy
    constructor
    · simp only [Slot.write, Slot.read, hye, Option.map_some, Function.update_self, Option.bind_some]
      refine hfree.congr fun b hb => ?_
      have hbe : b ≠ e := fun he => hex (he ▸ hb)
      exact Function.update_of_ne hbe ..
    · rfl
    · exact fun j _ => rfl
    · intro b hb hbe
      have hbe : b ≠ e := fun he => hbe (by rw [he])
      have hba : b ≠ a := fun he => hb (by simp [addrs, he])
      exact (Function.update_of_ne hbe ..).trans (Function.update_of_ne hba ..)
    · rintro b z he hz
      obtain rfl : e = b := Slot.next.inj he
      rw [hy] at hz
      cases hz
      exact ⟨x.next, by simp [Slot.write, hye]⟩

theorem wp_removeFrom {sl : Slot} (h : Cells m.heap (sl.read m) xs) (hd : (addrs xs).Nodup)
    (hv : sl.Valid m) (hne : ∀ b, sl = .next b → b ∉ addrs xs) (hn : xs.length < n) :
    wp Never (removeFrom key n sl) (fun r t => Relinked sl xs m t (erase key xs) ∧
      (r = 0 ↔ (lookup key xs).isSome)) m := by
  induction xs generalizing sl n with
  | nil =>
    obtain ⟨n, rfl⟩ := Nat.exists_eq_succ_of_ne_zero (Nat.ne_of_gt (Nat.zero_lt_of_lt hn))
    have hr : sl.read m = none := h
    rw [removeFrom, wp_bind, wp_load hv, hr]
    refine ⟨⟨h, rfl, fun _ _ => rfl, fun _ _ _ => rfl, fun a x _ hx => ⟨x.next, hx⟩⟩, ?_⟩
    simp [lookup]
  | cons c xs ih =>
    obtain ⟨a, k, v⟩ := c
    obtain ⟨hr, l, hl, hc⟩ := h
    obtain ⟨ha, hd'⟩ := List.nodup_cons.mp hd
    obtain ⟨n, rfl⟩ := Nat.exists_eq_succ_of_ne_zero (Nat.ne_of_gt (Nat.zero_lt_of_lt hn))
    have hne' : ∀ b, sl = .next b → b ≠ a ∧ b ∉ addrs xs := fun b hb =>
      ⟨fun he => hne b hb (by simp [addrs, he]), fun hm => hne b hb (List.mem_cons_of_mem _ hm)⟩
    rw [removeFrom, wp_bind, wp_load hv, hr]
    simp only [wp_bind, wp_entryAt hl, wp_ite, setEntry, wp_modify]
    rw [lookup_cons, erase_cons]
    constructor
    · intro hk
      have hk' : key = k := of_decide_eq_true hk
      have hv' : sl.Valid { m with heap := Function.update m.heap a none } := by
        cases sl with
        | bucket i => exact hv
        | next e =>
          have hea : e ≠ a := (hne' e rfl).1
          show Function.update m.heap a none e ≠ none
          rw [Function.update_of_ne hea]
          exact hv
      rw [if_pos hk', if_pos hk', wp_store hv', wp_pure]
      exact ⟨Relinked.head (x := ⟨k, v, l⟩) hc ha hv hne', by simp⟩
    · intro hk
      have hk' : key ≠ k := of_decide_eq_false (Bool.eq_false_of_not_eq_true hk)
      rw [if_neg hk', if_neg hk']
      have hnext : (Slot.next a).read m = l := by rw [Slot.read, hl, Option.bind_some]
      have hva : (Slot.next a).Valid m := by
        show m.heap a ≠ none
        rw [hl]
        exact Option.some_ne_none _
      have hna : ∀ b, Slot.next a = .next b → b ∉ addrs xs := fun b hb =>
        Slot.next.inj hb ▸ ha
      apply wp_mono (ih (hnext ▸ hc) hd' hva hna (Nat.lt_of_succ_lt_succ hn))
      exact fun r t ht => ⟨ht.1.cons (x := ⟨k, v, l⟩) hr hl hne', ht.2⟩

end Loops

end Frog.HashMap
