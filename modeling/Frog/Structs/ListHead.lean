import Frog.Lib.RingSplice
import Mathlib.Data.Fintype.Basic

/-!
# The intrusive list

The functions of `list.c` on a family of circular lists. A node carries its two links only; which
lists there are, and in which order their nodes stand, is what `RingLists` reads off the links. Each
function is one operation on these sequences.
-/

set_option autoImplicit false

namespace Frog.ListHead

section Functions
variable {α : Type} [DecidableEq α]

def listAdd (l : Links α) (node head : α) : Links α := l.add node head

def listAddTail (l : Links α) (node head : α) : Links α := l.addTail node head

def listDel (null : α) (l : Links α) (node : α) : Links α := l.del null node

def listDelInit (null : α) (l : Links α) (node : α) : Links α :=
  (listDel null l node).initListHead node

def listPop (null : α) (l : Links α) (head : α) : α × Links α :=
  (l.next head, listDelInit null l (l.next head))

def listAppendInit (l : Links α) (list head : α) : Links α :=
  (l.append list head).initListHead list

def listAppendTailInit (l : Links α) (list head : α) : Links α :=
  (l.appendTail list head).initListHead list

def listMove (null : α) (l : Links α) (node head : α) : Links α :=
  listAdd (listDel null l node) node head

def listMoveTail (null : α) (l : Links α) (node head : α) : Links α :=
  listAddTail (listDel null l node) node head

/-- `none` while the walk goes on. -/
def listFindElement (l : Links α) (fuel : Nat) (node head : α) : Option Bool :=
  l.findElement fuel node head

/-- The cleared links are overwritten. -/
theorem listDelInit_eq (null : α) (l : Links α) (node : α) :
    listDelInit null l node = l.delInit node := by
  simp [listDelInit, listDel, Links.del, Links.delInit, Links.initListHead, Links.setNext,
    Links.setPrev]

end Functions

/-- A call; a list is named by its index, a node by itself. -/
inductive Op (α ι : Type) where
  | add (node : α) (head : ι)
  | addTail (node : α) (head : ι)
  | pop (head : ι)
  | del (node : α)
  | delInit (node : α)
  | move (node : α) (head : ι)
  | moveTail (node : α) (head : ι)
  | appendInit (list head : ι)
  | appendTailInit (list head : ι)

namespace Op

variable {α ι : Type} [DecidableEq α]

def exec (null : α) (head : ι → α) (l : Links α) : Op α ι → Option α × Links α
  | add n i => (none, listAdd l n (head i))
  | addTail n i => (none, listAddTail l n (head i))
  | pop i => ((listPop null l (head i)).map some id)
  | del n => (none, listDel null l n)
  | delInit n => (none, listDelInit null l n)
  | move n i => (none, listMove null l n (head i))
  | moveTail n i => (none, listMoveTail null l n (head i))
  | appendInit j i => (none, listAppendInit l (head j) (head i))
  | appendTailInit j i => (none, listAppendTailInit l (head j) (head i))

/-- A node that is added is in no list, one that is taken out is in one, and two different lists are
joined. -/
def Allowed (head : ι → α) (L : ι → List α) : Op α ι → Prop
  | add n _ | addTail n _ => Unlinked head L n
  | pop i => L i ≠ []
  | del n | delInit n | move n _ | moveTail n _ => ∃ j, n ∈ L j
  | appendInit j i | appendTailInit j i => i ≠ j

instance [Fintype ι] [DecidableEq ι] (head : ι → α) (L : ι → List α) :
    (op : Op α ι) → Decidable (op.Allowed head L)
  | add n _ | addTail n _ => inferInstanceAs (Decidable (∀ i, n ∉ head i :: L i))
  | pop i => inferInstanceAs (Decidable (L i ≠ []))
  | del n | delInit n | move n _ | moveTail n _ => inferInstanceAs (Decidable (∃ j, n ∈ L j))
  | appendInit j i | appendTailInit j i => inferInstanceAs (Decidable (i ≠ j))

/-- The list `i` is one the call works on. -/
def Touches (L : ι → List α) (i : ι) : Op α ι → Prop
  | add _ k | addTail _ k | pop k => i = k
  | del n | delInit n => n ∈ L i
  | move n k | moveTail n k => n ∈ L i ∨ i = k
  | appendInit j k | appendTailInit j k => i = j ∨ i = k

variable [DecidableEq ι]

/-- What the call does to the sequences. -/
def act (L : ι → List α) : Op α ι → ι → List α
  | add n i => Function.update L i (n :: L i)
  | addTail n i => Function.update L i (L i ++ [n])
  | pop i => Function.update L i (L i).tail
  | del n | delInit n => fun k => (L k).erase n
  | move n i => Function.update (fun k => (L k).erase n) i (n :: (L i).erase n)
  | moveTail n i => Function.update (fun k => (L k).erase n) i ((L i).erase n ++ [n])
  | appendInit j i => Function.update (Function.update L i (L j ++ L i)) j []
  | appendTailInit j i => Function.update (Function.update L i (L i ++ L j)) j []

/-- What the call returns: `list_pop` the first node, the others nothing. -/
def result (L : ι → List α) : Op α ι → Option α
  | pop i => (L i).head?
  | _ => none

end Op

section Lemmas
variable {α ι : Type} [DecidableEq α] [DecidableEq ι] {l l' : Links α} {head : ι → α}
  {L : ι → List α} {n : α} {i j : ι} {null : α}

/-- Where a node stands, and what is left of the lists without it. -/
theorem erase_split (r : RingLists l head L) (hn : n ∈ L j) :
    ∃ xs ys, L j = xs ++ n :: ys ∧
      (fun k => (L k).erase n) = Function.update L j (xs ++ ys) := by
  obtain ⟨xs, ys, hL⟩ := List.append_of_mem hn
  refine ⟨xs, ys, hL, funext fun k => ?_⟩
  by_cases hk : k = j
  · subst hk
    have hd := (List.nodup_cons.mp (r.ring k).nodup).2
    rw [hL, List.nodup_append] at hd
    have hx : n ∉ xs := fun hm => hd.2.2 n hm n (by simp) rfl
    rw [Function.update_self, hL, List.erase_append_right _ hx, List.erase_cons_head]
  · have hm : n ∉ L k := fun hm => hk (r.mem_unique hm hn)
    rw [Function.update_of_ne hk, List.erase_of_not_mem hm]

theorem del_rings (null : α) (r : RingLists l head L) (hn : ∃ j, n ∈ L j) :
    RingLists (listDel null l n) head (fun k => (L k).erase n) ∧
      Unlinked head (fun k => (L k).erase n) n := by
  obtain ⟨j, hn⟩ := hn
  obtain ⟨xs, ys, hL, he⟩ := erase_split r hn
  rw [he]
  exact ⟨r.del null hL, r.removed_unlinked hL⟩

theorem delInit_rings (null : α) (r : RingLists l head L) (hn : ∃ j, n ∈ L j) :
    RingLists (listDelInit null l n) head (fun k => (L k).erase n) := by
  obtain ⟨j, hn⟩ := hn
  obtain ⟨xs, ys, hL, he⟩ := erase_split r hn
  rw [he, listDelInit_eq]
  exact r.delInit hL

theorem pop_rings (null : α) (r : RingLists l head L) (hi : L i ≠ []) :
    (L i).head? = some (listPop null l (head i)).1 ∧
      RingLists (listPop null l (head i)).2 head (Function.update L i (L i).tail) := by
  obtain ⟨n, xs, hL⟩ := List.exists_cons_of_ne_nil hi
  obtain ⟨hn, hr⟩ := r.pop hL
  rw [listPop, listDelInit_eq, hn, hL]
  exact ⟨rfl, hr⟩

/-- One call. -/
theorem Op.rings (null : α) (op : Op α ι) (r : RingLists l head L) (ha : op.Allowed head L) :
    RingLists (op.exec null head l).2 head (op.act L) := by
  cases op with
  | add n i => exact r.add ha
  | addTail n i => exact r.addTail ha
  | pop i => exact (pop_rings null r ha).2
  | del n => exact (del_rings null r ha).1
  | delInit n => exact delInit_rings null r ha
  | move n i =>
    obtain ⟨hr, hf⟩ := del_rings null r ha
    exact hr.add hf
  | moveTail n i =>
    obtain ⟨hr, hf⟩ := del_rings null r ha
    exact hr.addTail hf
  | appendInit j i => exact r.append ha
  | appendTailInit j i => exact r.appendTail ha

theorem Op.result_eq (null : α) (op : Op α ι) (r : RingLists l head L)
    (ha : op.Allowed head L) : (op.exec null head l).1 = op.result L := by
  cases op with
  | pop i => exact (pop_rings null r ha).1.symm
  | _ => rfl

theorem Op.act_untouched {op : Op α ι} (ht : ¬ op.Touches L i) : op.act L i = L i := by
  cases op with
  | add n k => exact Function.update_of_ne ht ..
  | addTail n k => exact Function.update_of_ne ht ..
  | pop k => exact Function.update_of_ne ht ..
  | del n => exact List.erase_of_not_mem ht
  | delInit n => exact List.erase_of_not_mem ht
  | move n k =>
    obtain ⟨hn, hk⟩ := not_or.mp ht
    rw [Op.act, Function.update_of_ne hk, List.erase_of_not_mem hn]
  | moveTail n k =>
    obtain ⟨hn, hk⟩ := not_or.mp ht
    rw [Op.act, Function.update_of_ne hk, List.erase_of_not_mem hn]
  | appendInit j k =>
    obtain ⟨hj, hk⟩ := not_or.mp ht
    rw [Op.act, Function.update_of_ne hj, Function.update_of_ne hk]
  | appendTailInit j k =>
    obtain ⟨hj, hk⟩ := not_or.mp ht
    rw [Op.act, Function.update_of_ne hj, Function.update_of_ne hk]

/-- Every call keeps the lists well formed and does to their sequences what `Op.act` says; the lists
it does not work on keep their nodes and their links. -/
theorem list_refines (null : α) (op : Op α ι) (r : RingLists l head L)
    (ha : op.Allowed head L) :
    RingLists (op.exec null head l).2 head (op.act L) ∧
      (∀ i, ∀ x ∈ head i :: op.act L i,
        (op.exec null head l).2.prev ((op.exec null head l).2.next x) = x ∧
        (op.exec null head l).2.next ((op.exec null head l).2.prev x) = x ∧
        ∃ k, (op.exec null head l).2.next^[k] x = head i) ∧
      (op.exec null head l).1 = op.result L ∧
      ∀ i, ¬ op.Touches L i → op.act L i = L i ∧ ∀ x ∈ head i :: L i,
        (op.exec null head l).2.next x = l.next x ∧ (op.exec null head l).2.prev x = l.prev x := by
  have hr := op.rings null r ha
  refine ⟨hr, fun i => (hr.ring i).circular, op.result_eq null r ha, ?_⟩
  intro i ht
  have he := Op.act_untouched ht
  have hi := hr.ring i
  rw [he] at hi
  exact ⟨he, (r.ring i).links_eq hi⟩

end Lemmas

/-! ## Runs -/

section Runs
variable {α ι : Type} [DecidableEq α] [DecidableEq ι] {l : Links α} {head : ι → α}
  {L : ι → List α}

def execAll (null : α) (head : ι → α) (l : Links α) (ops : List (Op α ι)) : Links α :=
  ops.foldl (fun l op => (op.exec null head l).2) l

def actAll (L : ι → List α) (ops : List (Op α ι)) : ι → List α :=
  ops.foldl (fun L op => op.act L) L

/-- Each call is allowed where it comes. -/
def AllowedAll (head : ι → α) : (ι → List α) → List (Op α ι) → Prop
  | _, [] => True
  | L, op :: ops => op.Allowed head L ∧ AllowedAll head (op.act L) ops

theorem run_rings (null : α) (ops : List (Op α ι)) (r : RingLists l head L)
    (ha : AllowedAll head L ops) :
    RingLists (execAll null head l ops) head (actAll L ops) := by
  induction ops generalizing l L with
  | nil => exact r
  | cons op ops ih => exact ih (op.rings null r ha.1) ha.2

omit [DecidableEq α] [DecidableEq ι] in
/-- Heads that are linked to themselves. -/
theorem empty_rings (hh : Function.Injective head) :
    RingLists (⟨id, id⟩ : Links α) head fun _ => [] := by
  constructor
  · exact fun i => ⟨⟨rfl, rfl⟩, by simp⟩
  · intro i j hij x hx hy
    exact hij (hh ((List.mem_singleton.mp hx).symm.trans (List.mem_singleton.mp hy)))

end Runs

/-- The last of two nodes goes over to the front of another list. -/
theorem list_refines_two :
    let head : Bool → Nat := fun b => bif b then 10 else 0
    let l := execAll 99 head ⟨id, id⟩ [.addTail 1 false, .addTail 2 false, .add 3 true]
    RingLists ((Op.move 2 true).exec 99 head l).2 head fun b => bif b then [2, 3] else [1] := by
  intro head l
  let L : Bool → List Nat := fun b => bif b then [3] else [1, 2]
  have h0 : RingLists (⟨id, id⟩ : Links Nat) head fun _ => [] := empty_rings (by decide)
  have hr := run_rings 99 [.addTail 1 false, .addTail 2 false, .add 3 true] h0
    ⟨by decide, by decide, by decide, trivial⟩
  have hL : actAll (fun _ => []) [.addTail 1 false, .addTail 2 false, .add 3 true] = L := by
    funext b
    cases b <;> rfl
  rw [hL] at hr
  have h := (list_refines 99 (.move 2 true) hr (by decide)).1
  have he : (Op.move 2 true).act L = fun b => bif b then [2, 3] else [1] := by
    funext b
    cases b <;> rfl
  rwa [he] at h

end Frog.ListHead
