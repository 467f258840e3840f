import Frog.Structs.ListHead
import Mathlib.Data.List.TakeWhile

/-!
# The queue of events

`poudland_wait_for` of `core/lib/poudland.c`. A message that is received brings its type and the two
words that become its links; the list of the context keeps the messages of other types.
-/

set_option autoImplicit false

namespace Frog.Compositor

abbrev Addr := BitVec 32

/-- A message that has arrived, with the address of `target` in the block it is copied to. -/
structure Arrival where
  type : BitVec 32
  target : Addr
  next : Addr
  prev : Addr
  deriving DecidableEq

/-- The `memcpy` into the new block, as far as the links go. -/
def Arrival.copied (m : Arrival) (l : Links Addr) : Links Addr :=
  (l.setNext m.target m.next).setPrev m.target m.prev

/-- `poudland_wait_for` on the messages in the order of their arrival; with no message of the type it
still waits. -/
def poudlandWaitFor (equeue : Addr) (type : BitVec 32) :
    List Arrival → Links Addr → Option (Arrival × List Arrival × Links Addr)
  | [], _ => none
  | m :: ms, l =>
    if m.type = type then some (m, ms, m.copied l)
    else poudlandWaitFor equeue type ms (ListHead.listAddTail (m.copied l) equeue m.target)

/-- The messages in front of the first one of the type. -/
def passed (type : BitVec 32) (ms : List Arrival) : List Arrival := ms.takeWhile (·.type ≠ type)

/-- The first message of the type and what comes behind it. -/
def awaited (type : BitVec 32) (ms : List Arrival) : List Arrival := ms.dropWhile (·.type ≠ type)

section Call
variable {equeue : Addr} {type : BitVec 32} {ms rest : List Arrival} {m : Arrival}
  {l l' : Links Addr} {old : List Addr}

/-- The message is the first of its type, and the others stay. -/
theorem waitFor_returns (h : poudlandWaitFor equeue type ms l = some (m, rest, l')) :
    awaited type ms = m :: rest := by
  induction ms generalizing l with
  | nil => cases h
  | cons x xs ih =>
    unfold poudlandWaitFor at h
    unfold awaited
    by_cases hx : x.type = type
    · rw [if_pos hx] at h
      cases h
      rw [List.dropWhile_cons_of_neg (by simpa using hx)]
    · rw [if_neg hx] at h
      rw [List.dropWhile_cons_of_pos (by simpa using hx)]
      exact ih h

theorem waitFor_isSome (h : awaited type ms = m :: rest) (equeue : Addr) (l : Links Addr) :
    ∃ l', poudlandWaitFor equeue type ms l = some (m, rest, l') := by
  induction ms generalizing l with
  | nil => cases h
  | cons x xs ih =>
    unfold poudlandWaitFor
    unfold awaited at h
    by_cases hx : x.type = type
    · rw [List.dropWhile_cons_of_neg (by simpa using hx)] at h
      cases h
      exact ⟨_, if_pos hx⟩
    · rw [List.dropWhile_cons_of_pos (by simpa using hx)] at h
      rw [if_neg hx]
      exact ih h _

/-- With its arguments in this order `list_add_tail` links the head of the queue behind the message. -/
theorem listAddTail_swapped (l : Links Addr) (m : Arrival) (hne : equeue ≠ m.target) :
    (ListHead.listAddTail (m.copied l) equeue m.target).next equeue = m.target ∧
      (ListHead.listAddTail (m.copied l) equeue m.target).prev equeue = m.prev := by
  unfold ListHead.listAddTail Links.addTail Arrival.copied
  simp [hne]

/-- The ends of the queue are what the last message that was passed over left there. -/
theorem waitFor_ends (h : poudlandWaitFor equeue type ms l = some (m, rest, l'))
    (hne : ∀ x ∈ passed type ms, equeue ≠ x.target) (hm : equeue ≠ m.target) :
    l'.next equeue = ((passed type ms).getLast?.map Arrival.target).getD (l.next equeue) ∧
      l'.prev equeue = ((passed type ms).getLast?.map Arrival.prev).getD (l.prev equeue) := by
  induction ms generalizing l with
  | nil => cases h
  | cons x xs ih =>
    unfold poudlandWaitFor at h
    unfold passed at hne ⊢
    by_cases hx : x.type = type
    · rw [if_pos hx] at h
      cases h
      rw [List.takeWhile_cons_of_neg (by simpa using hx)]
      simp [Arrival.copied, hm]
    · rw [List.takeWhile_cons_of_pos (by simpa using hx)] at hne ⊢
      rw [if_neg hx] at h
      obtain ⟨hn, hp⟩ := ih h fun y hy => hne y (List.mem_cons_of_mem _ hy)
      obtain ⟨hn', hp'⟩ := listAddTail_swapped l x (hne x List.mem_cons_self)
      rw [hn'] at hn
      rw [hp'] at hp
      rw [hn, hp, List.getLast?_cons]
      unfold passed
      cases (List.takeWhile (fun a => decide (a.type ≠ type)) xs).getLast? <;> exact ⟨rfl, rfl⟩

theorem passed_ne {x : Arrival} (h : x ∈ passed type ms) : x.type ≠ type := by
  simpa using List.mem_takeWhile_imp h

theorem awaited_type (h : awaited type ms = m :: rest) : m.type = type := by
  have hn := List.head?_dropWhile_not (fun x : Arrival => decide (x.type ≠ type)) ms
  rw [show ms.dropWhile _ = m :: rest from h] at hn
  simpa using hn

theorem passed_append_awaited (type : BitVec 32) (ms : List Arrival) :
    passed type ms ++ awaited type ms = ms := List.takeWhile_append_dropWhile

/-- The blocks of the call are none of those in use. -/
def NewBlocks (equeue : Addr) (old : List Addr) (type : BitVec 32) (ms : List Arrival)
    (m : Arrival) : Prop :=
  (equeue :: (old ++ (passed type ms).map Arrival.target) ++ [m.target]).Nodup

/-- Nothing is passed over, or one message that closes a list of its own. -/
def KeepsRing (old : List Addr) (os : List Arrival) : Prop :=
  os = [] ∨ old = [] ∧ ∃ o, os = [o] ∧ o.prev = o.target

/-- The first node of a list that ends in `n` is `n` only if there is no other. -/
theorem head_eq_last {xs : List Addr} {n : Addr} (hr : RingList l equeue (xs ++ [n]))
    (hn : l.next equeue = n) : xs = [] := by
  cases xs with
  | nil => rfl
  | cons x xs =>
    have he := hr.path.next_eq
    rw [hn, List.cons_append, List.headD_cons] at he
    subst he
    have hnd := (List.nodup_cons.mp hr.nodup).2
    simp at hnd

theorem waitFor_ring_iff (hl : RingList l equeue old)
    (hnew : NewBlocks equeue old type ms m)
    (h : poudlandWaitFor equeue type ms l = some (m, rest, l')) :
    RingList l' equeue (old ++ (passed type ms).map Arrival.target) ↔
      KeepsRing old (passed type ms) := by
  have hms := passed_append_awaited type ms
  rw [waitFor_returns h] at hms
  obtain ⟨hnd, -, hout⟩ := List.nodup_append.mp hnew
  have hm : ∀ x ∈ equeue :: (old ++ (passed type ms).map Arrival.target), x ≠ m.target :=
    fun x hx => hout x hx _ List.mem_cons_self
  have hne : ∀ x ∈ passed type ms, equeue ≠ x.target := by
    intro x hx he
    refine (List.nodup_cons.mp hnd).1 (List.mem_append_right _ ?_)
    exact he ▸ List.mem_map_of_mem hx
  have hty := awaited_type (waitFor_returns h)
  obtain ⟨hn, hp⟩ := waitFor_ends h hne (hm _ List.mem_cons_self)
  rcases List.eq_nil_or_concat (passed type ms) with hnil | ⟨front, o, hcons⟩
  · -- only the links of the message itself were written
    refine iff_of_true ?_ (.inl hnil)
    rw [hnil] at hms hm
    rw [← hms, List.nil_append] at h
    rw [poudlandWaitFor, if_pos hty] at h
    cases h
    rw [List.map_nil, List.append_nil] at hm
    rw [hnil, List.map_nil, List.append_nil]
    refine hl.congr (fun x hx => ?_) fun x hx => ?_
    · exact Function.update_of_ne (hm x hx) ..
    · exact Function.update_of_ne (hm x hx) ..
  · rw [List.concat_eq_append] at hcons
    rw [hcons, List.getLast?_append, List.getLast?_singleton] at hn hp
    have hn : l'.next equeue = o.target := hn
    have hp : l'.prev equeue = o.prev := hp
    have hmap : old ++ (passed type ms).map Arrival.target =
        old ++ front.map Arrival.target ++ [o.target] := by
      rw [hcons, List.map_append, List.map_singleton, List.append_assoc]
    rw [hmap]
    constructor
    · intro hr
      obtain ⟨hold, hfront⟩ := List.append_eq_nil_iff.mp (head_eq_last hr hn)
      have hfront := List.map_eq_nil_iff.mp hfront
      have hlast := (LinkPath.append_iff.mp hr.path).2
      refine .inr ⟨hold, o, ?_, ?_⟩
      · rw [hcons, hfront, List.nil_append]
      · rw [← hp]
        exact hlast.2
    · rintro (hnil | ⟨rfl, o', ho', hself⟩)
      · rw [hnil] at hcons
        simp at hcons
      · have hot := passed_ne (ho' ▸ List.mem_cons_self : o' ∈ passed type ms)
        have hne := hne o' (ho' ▸ List.mem_cons_self)
        have hom := hm o'.target (by rw [ho']; simp)
        have hem := hm equeue List.mem_cons_self
        rw [ho'] at hcons hms
        cases front with
        | cons x xs => simp at hcons
        | nil =>
          cases hcons
          rw [← hms, List.singleton_append, poudlandWaitFor, if_neg hot, poudlandWaitFor,
            if_pos hty] at h
          cases h
          refine ⟨⟨hn, ?_, ?_, hp.trans hself⟩, by simpa using hne⟩
          all_goals
            unfold ListHead.listAddTail Links.addTail Arrival.copied
            simp [hom, hself, Ne.symm hne]

end Call

/-! ## Any number of calls -/

section Session

/-- Each call that returns, returns the first message of its type and leaves a list of those that were
there and those it passed over, in the order of their arrival. -/
def QueuesOthers (equeue : Addr) : List (BitVec 32) → List Arrival → Links Addr → List Addr → Prop
  | [], _, _, _ => True
  | type :: types, ms, l, old => ∀ m rest l', poudlandWaitFor equeue type ms l = some (m, rest, l') →
    awaited type ms = m :: rest ∧
      RingList l' equeue (old ++ (passed type ms).map Arrival.target) ∧
      QueuesOthers equeue types rest l' (old ++ (passed type ms).map Arrival.target)

/-- The blocks of each call are new when it takes them. A message that was returned may be freed. -/
def Allocated (equeue : Addr) : List (BitVec 32) → List Arrival → List Addr → Prop
  | [], _, _ => True
  | type :: types, ms, old => ∀ m rest, awaited type ms = m :: rest →
    NewBlocks equeue old type ms m ∧
      Allocated equeue types rest (old ++ (passed type ms).map Arrival.target)

/-- The whole session passes over nothing, or over one message that closes a list of its own. -/
def PassesFew : List (BitVec 32) → List Arrival → List Addr → Prop
  | [], _, _ => True
  | type :: types, ms, old => ∀ m rest, awaited type ms = m :: rest →
    KeepsRing old (passed type ms) ∧
      PassesFew types rest (old ++ (passed type ms).map Arrival.target)

variable {equeue : Addr} {types : List (BitVec 32)} {ms : List Arrival} {l : Links Addr}
  {old : List Addr}

theorem queuesOthers_iff (hl : RingList l equeue old) (ha : Allocated equeue types ms old) :
    QueuesOthers equeue types ms l old ↔ PassesFew types ms old := by
  induction types generalizing ms l old with
  | nil => exact Iff.rfl
  | cons type types ih =>
    constructor
    · intro h m rest hm
      obtain ⟨hnew, hrest⟩ := ha m rest hm
      obtain ⟨l', hcall⟩ := waitFor_isSome hm equeue l
      obtain ⟨-, hring, hright⟩ := h m rest l' hcall
      exact ⟨(waitFor_ring_iff hl hnew hcall).mp hring, (ih hring hrest).mp hright⟩
    · intro h m rest l' hcall
      have hm := waitFor_returns hcall
      obtain ⟨hnew, hrest⟩ := ha m rest hm
      obtain ⟨hkeep, hfew⟩ := h m rest hm
      have hring := (waitFor_ring_iff hl hnew hcall).mpr hkeep
      exact ⟨hm, hring, (ih hring hrest).mpr hfew⟩

/-- The first message is of another type and brings the address of its own links as their last word;
another one of its type comes before the message that is waited for next. -/
def arrivals : List Arrival := [⟨1, 32, 0, 32⟩, ⟨2, 64, 0, 0⟩, ⟨1, 96, 48, 48⟩, ⟨3, 128, 0, 0⟩]

theorem arrivals_second {m : Arrival} {rest : List Arrival} (hm : awaited 2 arrivals = m :: rest) :
    m = ⟨2, 64, 0, 0⟩ ∧ rest = [⟨1, 96, 48, 48⟩, ⟨3, 128, 0, 0⟩] := by
  have he : awaited 2 arrivals = ⟨2, 64, 0, 0⟩ :: [⟨1, 96, 48, 48⟩, ⟨3, 128, 0, 0⟩] := by decide
  exact List.cons.inj (hm.symm.trans he)

theorem arrivals_fourth {m : Arrival} {rest : List Arrival}
    (hm : awaited 3 [⟨1, 96, 48, 48⟩, ⟨3, 128, 0, 0⟩] = m :: rest) : m = ⟨3, 128, 0, 0⟩ ∧ rest = [] := by
  have he : awaited 3 [⟨1, 96, 48, 48⟩, ⟨3, 128, 0, 0⟩] = [⟨3, 128, 0, 0⟩] := by decide
  exact List.cons.inj (hm.symm.trans he)

theorem arrivals_allocated : Allocated 16 [2, 3] arrivals [] := by
  intro m rest hm
  obtain ⟨rfl, rfl⟩ := arrivals_second hm
  refine ⟨by unfold NewBlocks passed; decide, fun m rest hm => ?_⟩
  obtain ⟨rfl, rfl⟩ := arrivals_fourth hm
  exact ⟨by unfold NewBlocks passed; decide, trivial⟩

/-- A new context keeps the message that the first call passes over, and loses its queue with the one
that the second call passes over. -/
theorem queuesOthers_iff_two :
    QueuesOthers 16 [2] arrivals (Links.initListHead ⟨id, id⟩ 16) [] ∧
      ¬ QueuesOthers 16 [2, 3] arrivals (Links.initListHead ⟨id, id⟩ 16) [] := by
  constructor
  · have hone : Allocated 16 [2] arrivals [] := fun m rest hm =>
      ⟨(arrivals_allocated m rest hm).1, trivial⟩
    refine (queuesOthers_iff (.init _ 16) hone).mpr fun m rest _ => ?_
    exact ⟨.inr ⟨rfl, ⟨1, 32, 0, 32⟩, by decide, rfl⟩, trivial⟩
  · intro h
    have hfew := (queuesOthers_iff (.init _ 16) arrivals_allocated).mp h
    obtain ⟨-, hrest⟩ := hfew ⟨2, 64, 0, 0⟩ [⟨1, 96, 48, 48⟩, ⟨3, 128, 0, 0⟩] (by decide)
    rcases (hrest ⟨3, 128, 0, 0⟩ [] (by decide)).1 with hnil | ⟨hold, -⟩
    · revert hnil
      decide
    · revert hold
      decide

/-- A message of another type comes first: its links lead to the mapped address 48, and so does the
end of the queue now. With zero links the call faults in a process. -/
theorem passed_message_breaks : ∃ l',
    poudlandWaitFor 16 2 [⟨1, 32, 48, 48⟩, ⟨2, 64, 0, 0⟩] (Links.initListHead ⟨id, id⟩ 16) =
      some (⟨2, 64, 0, 0⟩, [], l') ∧ ¬ RingList l' 16 [32] := by
  refine ⟨_, rfl, fun h => ?_⟩
  have hp := h.path.2.2.2
  simp [ListHead.listAddTail, Links.addTail, Arrival.copied, Links.initListHead] at hp

end Session

end Frog.Compositor
