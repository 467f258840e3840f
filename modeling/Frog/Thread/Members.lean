import Frog.Structs.ListHead
import Frog.Thread.Lists

/-!
# Who is found in a list

`list_find_element` on any circular list, and the tests that the functions of the threads make with
it: `schedule` and `thread_exit` of the ready list, `semaphore_down` of the waiting queue.
-/

namespace Frog.Thread

set_option autoImplicit false
open Prog

/-! ## The walk -/

/-- The call ends, and what it returns says whether the node is linked in the list. -/
def Tells {α : Type} [DecidableEq α] (l : Links α) (head : α) (xs : List α) (node : α) : Prop :=
  ∃ found, (∀ fuel, xs.length < fuel → ListHead.listFindElement l fuel node head = some found) ∧
    (found = true ↔ node ∈ xs)

/-- In a list without repetitions, one node alone is not in front of the last. -/
theorem mem_dropLast_iff {α : Type} {xs : List α} (hd : xs.Nodup) (n : α) :
    n ∈ xs.dropLast ↔ n ∈ xs ∧ xs.getLast? ≠ some n := by
  rcases List.eq_nil_or_concat xs with rfl | ⟨ys, z, rfl⟩
  · simp
  · rw [List.concat_eq_append] at hd ⊢
    have hz : z ∉ ys := fun hm => (List.nodup_append.mp hd).2.2 z hm z (by simp) rfl
    rw [List.dropLast_concat, List.getLast?_concat, List.mem_append, List.mem_singleton]
    constructor
    · intro hn
      refine ⟨.inl hn, fun he => hz ?_⟩
      rw [Option.some.inj he]
      exact hn
    · rintro ⟨hn | rfl, hne⟩
      · exact hn
      · exact absurd rfl hne

section Walk
variable {α : Type} [DecidableEq α] {l : Links α} {head node : α} {xs : List α}

omit [DecidableEq α] in
/-- Being in front of the last node is being a member exactly for those that are not the last. -/
theorem dropLast_exact_iff (hd : xs.Nodup) :
    (node ∈ xs.dropLast ↔ node ∈ xs) ↔ xs.getLast? ≠ some node := by
  rw [mem_dropLast_iff hd]
  constructor
  · intro h hlast
    exact (h.mpr (List.mem_of_getLast? hlast)).2 hlast
  · exact fun h => ⟨And.left, fun hn => ⟨hn, h⟩⟩

/-- Every node but the last is told apart. -/
theorem tells_iff (r : RingList l head xs) : Tells l head xs node ↔ xs.getLast? ≠ some node := by
  rw [← dropLast_exact_iff (List.nodup_cons.mp r.nodup).2]
  constructor
  · rintro ⟨found, hend, hfound⟩
    rw [← hfound]
    have hrun := (hend (xs.length + 1) (Nat.lt_succ_self _)).symm.trans
      (r.findElement_eq (Nat.lt_succ_self _))
    rw [Option.some.inj hrun, decide_eq_true_iff]
  · intro h
    refine ⟨decide (node ∈ xs.dropLast), fun fuel hk => r.findElement_eq hk, ?_⟩
    rw [decide_eq_true_iff]
    exact h

end Walk

/-! ## The tests -/

/-- The test of a thread sees it in the list. -/
def SeesMember (s : State) (L : Head → List Node) (t : Tid) (h : Head) : Prop :=
  listFindElement (.tag t) h s = .ok (decide (.tag t ∈ L h), s)

/-- A thread that exits is in the ready list no longer. -/
def LeavesReady (s : State) (t : Tid) : Prop :=
  ∃ u, threadExit t s = .ok ((), u) ∧
    ∀ L, RingLists u.links Node.head L → .tag t ∉ L .ready

section Tests
variable {s : State} {L : Head → List Node} {t : Tid} {h : Head} {n : Node}

theorem listFindElement_eq (hL : Linked s L) :
    listFindElement n h s = .ok (decide (n ∈ (L h).dropLast), s) := by
  unfold listFindElement
  rw [bind_ok (get_apply s), (hL.rings.ring h).findElement_eq (hL.length_lt h), need_some]

theorem seesMember_iff (hL : Linked s L) :
    SeesMember s L t h ↔ (L h).getLast? ≠ some (.tag t) := by
  unfold SeesMember
  rw [listFindElement_eq hL, ← dropLast_exact_iff (hL.nodup h)]
  simp only [Except.ok.injEq, Prod.mk.injEq, and_true, decide_eq_decide]

/-- The links that an exit leaves. -/
def exitLinks (s : State) (L : Head → List Node) (t : Tid) : Links Node :=
  if .tag t ∈ (L .ready).dropLast then s.links.delInit (.tag t) else s.links

/-- The state after an exit. -/
def State.exited (s : State) (L : Head → List Node) (t : Tid) : State :=
  { (s.setStatus t .died).setLinks (exitLinks s L t) with all := s.all.erase t }

theorem threadExit_eq (hL : Linked s L) : threadExit t s = .ok ((), s.exited L t) := by
  have hL' : Linked (s.setStatus t .died) L := ⟨hL.rings, hL.tags⟩
  have hset : setStatus t .died s = .ok ((), s.setStatus t .died) := rfl
  unfold threadExit State.exited exitLinks
  rw [bind_ok hset, bind_ok (listFindElement_eq hL')]
  by_cases ht : .tag t ∈ (L .ready).dropLast
  · rw [decide_eq_true ht, if_pos rfl, if_pos ht]
    rfl
  · rw [decide_eq_false ht, if_neg Bool.false_ne_true, if_neg ht]
    rfl

/-- The rings after an exit, without the thread only if it was found. -/
theorem exited_rings (hL : Linked s L) : RingLists (s.exited L t).links Node.head
    (Function.update L .ready
      (if .tag t ∈ (L .ready).dropLast then (L .ready).erase (.tag t) else L .ready)) := by
  show RingLists (exitLinks s L t) _ _
  unfold exitLinks
  by_cases ht : .tag t ∈ (L .ready).dropLast
  · rw [if_pos ht, if_pos ht]
    have hmem : .tag t ∈ L .ready := List.dropLast_subset _ ht
    obtain ⟨xs, ys, hsplit⟩ := List.append_of_mem hmem
    have hx : .tag t ∉ xs := fun hm => by
      have hd := hL.nodup .ready
      rw [hsplit, List.nodup_append] at hd
      exact hd.2.2 _ hm _ List.mem_cons_self rfl
    rw [hsplit, List.erase_append_right _ hx, List.erase_cons_head]
    exact hL.rings.delInit hsplit
  · rw [if_neg ht, if_neg ht, Function.update_eq_self]
    exact hL.rings

theorem leavesReady_iff (hL : Linked s L) :
    LeavesReady s t ↔ (L .ready).getLast? ≠ some (.tag t) := by
  have hrings := exited_rings (t := t) hL
  constructor
  · rintro ⟨u, hrun, hout⟩ hlast
    rw [threadExit_eq hL] at hrun
    cases hrun
    have hnot : .tag t ∉ (L .ready).dropLast := fun hm =>
      ((mem_dropLast_iff (hL.nodup .ready) _).mp hm).2 hlast
    rw [if_neg hnot, Function.update_eq_self] at hrings
    exact hout L hrings (List.mem_of_getLast? hlast)
  · intro hlast
    refine ⟨_, threadExit_eq hL, fun L' hL' => ?_⟩
    rw [(hL'.ring .ready).unique (hrings.ring .ready), Function.update_self]
    by_cases ht : .tag t ∈ (L .ready).dropLast
    · rw [if_pos ht]
      exact (hL.nodup .ready).not_mem_erase
    · rw [if_neg ht]
      exact fun hm => ht ((mem_dropLast_iff (hL.nodup .ready) _).mpr ⟨hm, hlast⟩)

end Tests

/-! ## Two ready threads -/

/-- Thread 0 runs, 1 and 2 are ready in this order. -/
def twoReady : State := State.start 0 1 [2, 1] (fun _ => none) fun _ => .init 64

def twoReadyLists : Head → List Node := Function.update (fun _ => []) .ready [.tag 1, .tag 2]

theorem twoReady_linked : Linked twoReady twoReadyLists := by
  refine ⟨ringLists_start (by decide), fun h n hn => ?_⟩
  unfold twoReadyLists at hn
  by_cases hh : h = .ready
  · subst hh
    rw [Function.update_self] at hn
    rcases List.mem_cons.mp hn with rfl | hn
    · exact ⟨1, by decide, rfl⟩
    · exact ⟨2, by decide, List.mem_singleton.mp hn⟩
  · rw [Function.update_of_ne hh] at hn
    cases hn

/-! ## Which members are found -/

/-- On every circular list `list_find_element` tells members from others for every node but the last,
and so do the tests of the ready list and of the waiting queues. A thread that exits leaves the ready
list unless it is the last there. -/
theorem list_find_element_exact {α : Type} [DecidableEq α] {l : Links α} {head : α} {xs : List α}
    {s : State} {L : Head → List Node} (hring : RingList l head xs) (hL : Linked s L) :
    (∀ node, Tells l head xs node ↔ xs.getLast? ≠ some node) ∧
      ∀ t, (∀ h, SeesMember s L t h ↔ (L h).getLast? ≠ some (.tag t)) ∧
        (LeavesReady s t ↔ (L .ready).getLast? ≠ some (.tag t)) :=
  ⟨fun _ => tells_iff hring, fun _ => ⟨fun _ => seesMember_iff hL, leavesReady_iff hL⟩⟩

theorem list_find_element_exact_two :
    Tells twoReady.links (.head .ready) [.tag 1, .tag 2] (.tag 1) ∧
      ¬ Tells twoReady.links (.head .ready) [.tag 1, .tag 2] (.tag 2) ∧
      SeesMember twoReady twoReadyLists 1 .ready ∧ LeavesReady twoReady 1 := by
  have hring : RingList twoReady.links (.head .ready) [.tag 1, .tag 2] :=
    twoReady_linked.rings.ring .ready
  obtain ⟨hwalk, htests⟩ := list_find_element_exact hring twoReady_linked
  obtain ⟨hsees, hleaves⟩ := htests 1
  exact ⟨(hwalk (.tag 1)).mpr (by decide), fun h => (hwalk (.tag 2)).mp h (by decide),
    (hsees .ready).mpr (by decide), hleaves.mpr (by decide)⟩

/-- The last thread of the ready list exits and stays linked there. -/
theorem last_stays_ready :
    Linked twoReady twoReadyLists ∧ .tag 2 ∈ twoReadyLists .ready ∧
      ListHead.listFindElement twoReady.links 3 (.tag 2) (.head .ready) = some false ∧
      ¬ Tells twoReady.links (.head .ready) (twoReadyLists .ready) (.tag 2) ∧
      listFindElement (.tag 2) .ready twoReady = .ok (false, twoReady) ∧
      ∃ u, threadExit 2 twoReady = .ok ((), u) ∧ u.status 2 = .died ∧
        RingLists u.links Node.head twoReadyLists := by
  have hL := twoReady_linked
  have hnot : .tag 2 ∉ (twoReadyLists .ready).dropLast := by decide
  refine ⟨hL, by decide, by decide, fun h => (tells_iff (hL.rings.ring .ready)).mp h (by decide), ?_,
    _, threadExit_eq hL, by decide, ?_⟩
  · rw [listFindElement_eq hL, decide_eq_false hnot]
  · have hrings := exited_rings (t := 2) hL
    rwa [if_neg hnot, Function.update_eq_self] at hrings

end Frog.Thread
