import Frog.Wait.Queue

/-!
# The wait queues together

The queues and the ready list are lists of one heap of links. An entry is in one queue at most, and
adding to a queue, removing from one and waking keep it so.
-/

namespace Frog.Wait

set_option autoImplicit false
open Prog
open Frog.Thread (Tid Status)

variable {E : Type}

/-- `none` is the ready list. -/
def headOf : Option Nat → Node E
  | none => .ready
  | some q => .head q

def nodesOf (Q : Nat → List E) (ps : List Tid) : Option Nat → List (Node E)
  | none => ps.map .tag
  | some q => (Q q).map .entry

/-- The queues have the entries `Q`. -/
structure Queued (s : State E) (Q : Nat → List E) : Prop where
  rings : ∃ ps, RingLists s.links headOf (nodesOf Q ps)
  magic : ∀ q, ∀ e ∈ Q q, s.magic e = true
  headMagic : ∀ q, s.headMagic q = true

section Queued
variable {s t : State E} {Q : Nat → List E} {q : Nat} {e : E} {p : Tid} {ps : List Tid}
  {X : Stop → Prop}

theorem nodesOf_queue {es : List E} :
    Function.update (nodesOf Q ps) (some q) (es.map .entry) = nodesOf (Function.update Q q es) ps := by
  funext i
  cases i with
  | none => rfl
  | some r =>
    by_cases hr : r = q
    · subst hr
      simp only [nodesOf, Function.update_self]
    · rw [Function.update_of_ne fun h => hr (Option.some.inj h)]
      simp only [nodesOf, Function.update_of_ne hr]

theorem nodesOf_ready {ps' : List Tid} :
    Function.update (nodesOf Q ps) none (ps'.map .tag) = nodesOf Q ps' := by
  funext i
  cases i with
  | none => rfl
  | some r => rfl

theorem entry_unlinked (he : ∀ q, e ∉ Q q) : Unlinked headOf (nodesOf Q ps) (.entry e) := by
  intro i hm
  cases i with
  | none => simp [headOf, nodesOf] at hm
  | some q => exact he q (by simpa [headOf, nodesOf] using hm)

theorem tag_unlinked (hp : p ∉ ps) : Unlinked headOf (nodesOf Q ps) (.tag p : Node E) := by
  intro i hm
  cases i with
  | none => exact hp (by simpa [headOf, nodesOf] using hm)
  | some q => simp [headOf, nodesOf] at hm

namespace Queued

theorem queue (h : Queued s Q) (q : Nat) : RingList s.links (.head q) ((Q q).map .entry) := by
  obtain ⟨ps, hr⟩ := h.rings
  exact hr.ring (some q)

theorem nodup (h : Queued s Q) (q : Nat) : (Q q).Nodup :=
  List.Nodup.of_map _ (List.nodup_cons.mp (h.queue q).nodup).2

theorem eq_of_mem (h : Queued s Q) {r : Nat} (hq : e ∈ Q q) (hr : e ∈ Q r) : q = r := by
  obtain ⟨ps, hrings⟩ := h.rings
  have hmem : ∀ r, e ∈ Q r → Node.entry e ∈ nodesOf Q ps (some r) := fun r hm =>
    List.mem_map_of_mem hm
  exact Option.some.inj (hrings.mem_unique (hmem q hq) (hmem r hr))

/-- Only the links and the magics matter. -/
theorem congr (h : Queued s Q) (hlinks : t.links = s.links)
    (hmagic : ∀ e, s.magic e = true → t.magic e = true) (hhead : t.headMagic = s.headMagic) :
    Queued t Q := by
  obtain ⟨ps, hr⟩ := h.rings
  refine ⟨⟨ps, ?_⟩, ?_, ?_⟩
  · rw [hlinks]
    exact hr
  · intro q e he
    exact hmagic e (h.magic q e he)
  · intro q
    rw [hhead]
    exact h.headMagic q

/-- Another ready list with the same queues. -/
theorem schedule (h : Queued s Q) {links : Links (Node E)} {status : Tid → Status}
    (hready : RingList links .ready (ps.map .tag))
    (hsame : ∀ x, (∃ q, x = .head q) ∨ (∃ e, x = .entry e) →
      links.next x = s.links.next x ∧ links.prev x = s.links.prev x) :
    Queued { s with links := links, status := status } Q := by
  have hnodes : ∀ q, ∀ x ∈ Node.head q :: (Q q).map .entry,
      (∃ q, x = .head q) ∨ (∃ e, x = .entry e) := by
    intro q x hx
    rcases List.mem_cons.mp hx with hx | hx
    · exact .inl ⟨q, hx⟩
    · obtain ⟨e, -, he⟩ := List.mem_map.mp hx
      exact .inr ⟨e, he.symm⟩
  obtain ⟨ps₀, hr⟩ := h.rings
  refine ⟨⟨ps, ⟨?_, ?_⟩⟩, h.magic, h.headMagic⟩
  · intro i
    cases i with
    | none => exact hready
    | some q =>
      have hx := fun x hx => hsame x (hnodes q x hx)
      exact (h.queue q).congr (fun x hm => (hx x hm).1) fun x hm => (hx x hm).2
  · intro i j hij
    cases i with
    | none =>
      cases j with
      | none => exact absurd rfl hij
      | some r =>
        intro x hx hm
        rcases hnodes r x hm with ⟨q, rfl⟩ | ⟨e, rfl⟩ <;> simp [headOf, nodesOf] at hx
    | some q =>
      cases j with
      | none =>
        intro x hm hx
        rcases hnodes q x hm with ⟨q, rfl⟩ | ⟨e, rfl⟩ <;> simp [headOf, nodesOf] at hx
      | some r => exact hr.apart (some q) (some r) hij

section Operations
variable [DecidableEq E]

theorem init (h : Queued s Q) :
    wp X (initWaitqueueEntry e p) (fun _ t => Queued t Q ∧ t.magic e = true) s := by
  refine ⟨h.congr rfl ?_ rfl, Function.update_self ..⟩
  intro e' he'
  by_cases hee : e' = e
  · rw [hee]
    exact Function.update_self ..
  · exact (Function.update_of_ne hee ..).trans he'

theorem add (h : Queued s Q) (he : ∀ q, e ∉ Q q) (hm : s.magic e = true) :
    wp X (addWaitQueue q e) (fun _ t => Queued t (Function.update Q q (e :: Q q))) s := by
  have hne : s.links.next (.head q) ≠ .null ∧ s.links.prev (.head q) ≠ .null := by
    refine ⟨path_next_ne_null (h.queue q).path (by simp), fun hnull => ?_⟩
    have hmem := hnull ▸ (h.queue q).prev_mem
    simp at hmem
  unfold addWaitQueue checkMagicWqhead checkMagic wqCheckListHead
  simp only [wp_bind, wp_get, wp_check, wp_modify]
  refine ⟨fun _ => ⟨fun _ => ⟨fun _ => ?_, fun hn => absurd hne hn⟩, fun hn => absurd hm hn⟩,
    fun hn => absurd (h.headMagic q) hn⟩
  obtain ⟨ps, hr⟩ := h.rings
  refine ⟨⟨ps, ?_⟩, ?_, h.headMagic⟩
  · rw [← nodesOf_queue]
    exact hr.add (i := some q) (entry_unlinked he)
  · intro r e' he'
    by_cases hrq : r = q
    · rw [hrq, Function.update_self] at he'
      rcases List.mem_cons.mp he' with rfl | he'
      · exact hm
      · exact h.magic q e' he'
    · rw [Function.update_of_ne hrq] at he'
      exact h.magic r e' he'

theorem remove (h : Queued s Q) {r : Nat} (he : e ∈ Q q) :
    wp X (removeWaitQueue r e) (fun _ t => Queued t (Function.update Q q ((Q q).erase e))) s := by
  unfold removeWaitQueue checkMagic
  simp only [wp_bind, wp_get, wp_check, wp_modify]
  refine ⟨fun _ => ?_, fun hn => absurd (h.magic q e he) hn⟩
  obtain ⟨ps, hr⟩ := h.rings
  obtain ⟨xs, ys, hnot, hxy, herase⟩ := List.exists_erase_eq he
  have hlist : nodesOf Q ps (some q) = xs.map .entry ++ .entry e :: ys.map .entry := by
    simp only [nodesOf, hxy, List.map_append, List.map_cons]
  refine ⟨⟨ps, ?_⟩, ?_, h.headMagic⟩
  · rw [herase, ← nodesOf_queue, List.map_append]
    exact hr.del .null hlist
  · intro r e' he'
    by_cases hrq : r = q
    · rw [hrq, Function.update_self] at he'
      exact h.magic q e' (List.mem_of_mem_erase he')
    · rw [Function.update_of_ne hrq] at he'
      exact h.magic r e' he'

theorem wakeUp (h : Queued s Q) {n nr : Nat} {mode : BitVec 32}
    (hrun : Wait.wakeUp n (some q) mode nr s = .ok ((), t)) : Queued t Q := by
  obtain ⟨ps, hr⟩ := h.rings
  have hw : Waiting s q (Q q) ps := ⟨h.queue q, hr.ring none, h.headMagic q, h.magic q⟩
  have hwoken : t = s.woken mode ((Q q).map s.task) := by
    rcases hw.wakeUp_ok (n := n) with hok | hok
    · rw [hok] at hrun
      exact (Prod.mk.inj (Except.ok.inj hrun)).2.symm
    · rw [hok.2] at hrun
      cases hrun
  subst hwoken
  refine ⟨?_, h.magic, h.headMagic⟩
  cases hf : ((Q q).map s.task).find? (stopsAt mode s) with
  | none =>
    refine ⟨ps, ?_⟩
    simpa [State.woken, hf] using hr
  | some p =>
    have hstop : stopsAt mode s p = true := List.find?_some hf
    have hself : s.links.next (.tag p) = .tag p := by
      simpa [stopsAt, taskOnReadylist] using (of_decide_eq_true hstop).2
    have hp : p ∉ ps := by
      intro hm
      exact hw.ready.next_ne (List.mem_map_of_mem hm) hself
    refine ⟨ps ++ [p], ?_⟩
    have hadd := hr.addTail (i := none) (tag_unlinked hp)
    rw [show nodesOf Q ps none ++ [Node.tag p] = (ps ++ [p]).map .tag by simp [nodesOf],
      nodesOf_ready] at hadd
    simpa [State.woken, hf, headOf] using hadd

end Operations

end Queued

end Queued

end Frog.Wait
