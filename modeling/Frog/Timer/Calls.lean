import Frog.Timer.Iteration
import Mathlib.Data.Set.Finite.Lattice
import Mathlib.Data.Set.Finite.List

/-!
# Calls from outside and from handlers

`add_timer` and `del_timer` keep the timers in their slots, or behind each other in `queued`.
-/

namespace Frog.Timer

set_option autoImplicit false
open Prog

variable {s : State} {now : Nat} {c : Nat → Nat} {due : Nat → Option Nat}
  {L : Nat × Nat → List Node} {R Q : List Node} {t : Nat} {E : Stop → Prop}

theorem Wheel.setPhase (h : Wheel s now c due L R) (p : Phase) :
    Wheel (s.setPhase p) now c due L R :=
  ⟨h.jiffies, h.index_zero, h.index, h.fits, h.rings, h.placed, h.away, h.away_nodup, h.linked,
    h.cleared⟩

theorem Outside.setPhase (h : Outside s now due L) (p : Phase) :
    Outside (s.setPhase p) now due L := by
  obtain ⟨⟨c, hw, hb⟩, hr⟩ := h
  exact ⟨⟨c, hw.setPhase p, hb⟩, hr⟩

theorem Inside.setPhase (h : Inside s now due L Q) (p : Phase) :
    Inside (s.setPhase p) now due L Q := by
  obtain ⟨⟨c, hw, ha⟩, hr, hq, hl⟩ := h
  exact ⟨⟨c, hw.setPhase p, ha⟩, hr, hq, hl⟩

/-! ## Which timers are pending -/

theorem Outside.pending_iff (h : Outside s now due L) : s.pending t = (due t).isSome := by
  obtain ⟨⟨c, hw, -⟩, -⟩ := h
  cases hd : due t with
  | none =>
    rw [State.pending, hw.cleared t hd]
    rfl
  | some d =>
    obtain ⟨v, hv⟩ := (hw.linked t d hd).resolve_right (by simp)
    exact hw.pending_of_mem hv

theorem Inside.pending_iff (h : Inside s now due L Q) : s.pending t = (due t).isSome := by
  obtain ⟨c, hw, -⟩ := h.wheel
  cases hd : due t with
  | none =>
    rw [State.pending, hw.cleared t hd]
    rfl
  | some d =>
    rcases hw.linked t d hd with ⟨v, hv⟩ | hm
    · exact hw.pending_of_mem hv
    · exact h.pending_of_mem hm

/-! ## Adding -/

theorem Outside.add (h : Outside s now due L) (hd : due t = none) (e : BitVec 32) :
    ∃ u v, internalAddTimer t (s.setExpires t e) = .ok ((), u) ∧ u.phase = s.phase ∧
      u.ticks = s.ticks ∧ Level now (dueAt now e) v.1 ∧
      Outside u now (Function.update due t (some (dueAt now e))) (behind L t v) := by
  obtain ⟨⟨c, hw, hb⟩, hr⟩ := h
  have hs := hw.schedule hd e (dueAt now e)
  have he : (s.setExpires t e).expires t = e := Function.update_self ..
  have hdue : Function.update due t (some (dueAt now e)) t =
      some (dueAt now ((s.setExpires t e).expires t)) := by
    rw [Function.update_self, he]
  obtain ⟨v, hl, hadd, hput⟩ := hs.internalAdd hr hdue
  exact ⟨_, v, hadd, rfl, rfl, he ▸ hl, ⟨c, hput, hb⟩, hr⟩

/-- In an iteration the timer goes to the end of `queued`. -/
theorem Inside.add (h : Inside s now due L Q) (hd : due t = none) (e : BitVec 32) :
    ∃ u, internalAddTimer t (s.setExpires t e) = .ok ((), u) ∧ u.phase = s.phase ∧
      u.ticks = s.ticks ∧
      Inside u now (Function.update due t (some (dueAt (now + 1) e))) L (Q ++ [.timer t]) := by
  have hbeside := h.beside
  obtain ⟨⟨c, hw, ha⟩, hr, hq, hlater⟩ := h
  obtain ⟨hu, htQ⟩ := hw.unlinked_of_none hd
  have htq : Node.timer t ∉ Node.queued :: Q := by simp [htQ]
  let l := s.links.addTail (.timer t) .queued
  have hadd : internalAddTimer t (s.setExpires t e) =
      .ok ((), (s.setExpires t e).setLinks l) := by
    have hv : (s.setExpires t e).vecFor ((s.setExpires t e).expires t) = .queued := if_pos hr
    change Except.ok ((), (s.setExpires t e).setLinks (s.links.add (.timer t)
      (s.links.prev ((s.setExpires t e).vecFor ((s.setExpires t e).expires t))))) = _
    rw [hv, hq.add_prev htq]
  have hkeep : ∀ x, x ≠ .timer t → x ∉ Node.queued :: Q →
      l.next x = s.links.next x ∧ l.prev x = s.links.prev x := by
    intro x hxt hx
    refine ⟨Links.addTail_next_of_ne hxt ?_, Links.addTail_prev_of_ne hxt ?_⟩
    · rintro rfl
      exact hx hq.prev_mem
    · rintro rfl
      exact hx (by simp)
  refine ⟨_, hadd, rfl, rfl, ⟨c, ?_, ha⟩, hr, hq.addTail htq, ?_⟩
  · refine (hw.schedule hd e (dueAt (now + 1) e)).relink (fun v x hx => ?_) fun u hud => ?_
    · refine hkeep x ?_ fun hm => hbeside v hm hx
      rintro rfl
      exact hu v hx
    · have hut : u ≠ t := by
        rintro rfl
        rw [Function.update_self] at hud
        cases hud
      rw [Function.update_of_ne hut] at hud
      rw [(hkeep (.timer u) (fun he => hut (Node.timer.inj he)) ?_).1]
      · exact hw.cleared u hud
      · simp [(hw.unlinked_of_none hud).2]
  · intro u hm
    by_cases hut : u = t
    · subst hut
      change Function.update due u _ u = some (dueAt (now + 1) (Function.update s.expires u e u))
      rw [Function.update_self, Function.update_self]
    · have hm' : Node.timer u ∈ Q := by
        rcases List.mem_append.mp hm with hm | hm
        · exact hm
        · exact absurd (Node.timer.inj (List.mem_singleton.mp hm)) hut
      change Function.update due t _ u = some (dueAt (now + 1) (Function.update s.expires t e u))
      rw [Function.update_of_ne hut, Function.update_of_ne hut]
      exact hlater u hm'

/-! ## Deleting -/

/-- Clearing the links of a timer that is not pending changes no list. -/
def clearedLinks (l : Links Node) (t : Nat) : Links Node :=
  (l.setPrev (.timer t) .null).setNext (.timer t) .null

theorem clearedLinks_of_ne {l : Links Node} {x : Node} (hx : x ≠ .timer t) :
    (clearedLinks l t).next x = l.next x ∧ (clearedLinks l t).prev x = l.prev x := by
  simp [clearedLinks, hx]

theorem Wheel.clear (h : Wheel s now c due L R) (hd : due t = none) :
    Wheel (s.setLinks (clearedLinks s.links t)) now c due L R := by
  refine h.relink (fun v x hx => clearedLinks_of_ne (h.node_ne_timer hx hd)) fun u hu => ?_
  by_cases hut : u = t
  · simp [clearedLinks, hut]
  · rw [(clearedLinks_of_ne fun he => hut (Node.timer.inj he)).1]
    exact h.cleared u hu

theorem update_none (hd : due t = none) : Function.update due t none = due := by
  rw [← hd, Function.update_eq_self]

/-- A list with a timer taken out, beside lists that stay. -/
theorem update_sublist {v : Nat × Nat} {xs ys : List Node} {x : Node} (hL : L v = xs ++ x :: ys)
    (w : Nat × Nat) : (Function.update L v (xs ++ ys) w).Sublist (L w) := by
  by_cases hw : w = v
  · subst hw
    rw [Function.update_self, hL]
    exact (List.sublist_cons_self x ys).append_left xs
  · rw [Function.update_of_ne hw]

theorem Outside.del (h : Outside s now due L) :
    ∃ l L', delTimer t s = .ok ((), s.setLinks l) ∧
      Outside (s.setLinks l) now (Function.update due t none) L' ∧
      ∀ v, (L' v).Sublist (L v) := by
  have hp := h.pending_iff (t := t)
  obtain ⟨⟨c, hw, hb⟩, hr⟩ := h
  cases hd : due t with
  | none =>
    rw [hd] at hp
    refine ⟨clearedLinks s.links t, L, run_eq_of_wp ((wp_detachTimer_of_not hp).mpr ⟨rfl, rfl⟩), ?_⟩
    rw [update_none hd]
    exact ⟨⟨⟨c, hw.clear hd, hb⟩, hr⟩, fun _ => .refl _⟩
  | some d =>
    rw [hd] at hp
    obtain ⟨v, hv⟩ := (hw.linked t d hd).resolve_right (by simp)
    obtain ⟨xs, ys, hL⟩ := List.append_of_mem hv
    exact ⟨_, _, run_eq_of_wp ((wp_detachTimer hp).mpr ⟨rfl, rfl⟩), ⟨⟨c, hw.detach hL, hb⟩, hr⟩,
      update_sublist hL⟩

/-- A timer is detached from `queued`. -/
theorem Inside.unqueue {xs ys : List Node} (h : Inside s now due L (xs ++ .timer t :: ys)) :
    Inside (s.setLinks (detached s.links t)) now (Function.update due t none) L (xs ++ ys) := by
  have hbeside := h.beside
  obtain ⟨⟨c, hw, ha⟩, hr, hq, hlater⟩ := h
  have hmem : ∀ x ∈ Node.queued :: (xs ++ ys), x ∈ Node.queued :: (xs ++ .timer t :: ys) := by
    intro x hx
    simp only [List.mem_cons, List.mem_append] at hx ⊢
    tauto
  have hprev := hq.prev_of_append
  have hnext := hq.next_of_append
  have hkeep : ∀ x, x ∉ Node.queued :: (xs ++ .timer t :: ys) →
      (detached s.links t).next x = s.links.next x ∧
        (detached s.links t).prev x = s.links.prev x := by
    intro x hx
    have hxt : x ≠ .timer t := by
      rintro rfl
      exact hx (by simp)
    obtain ⟨h1, h2⟩ := detached_of_ne (l := s.links) hxt
    refine ⟨h1.trans (Links.unlink_next_of_ne ?_), h2.trans (Links.unlink_prev_of_ne ?_)⟩
    · rintro rfl
      refine hx ?_
      simp only [List.mem_cons, List.mem_append] at hprev ⊢
      tauto
    · rintro rfl
      refine hx ?_
      simp only [List.mem_cons, List.mem_append] at hnext ⊢
      tauto
  have hqn : Node.timer t ∉ xs ++ ys :=
    (List.nodup_cons.mp (List.nodup_middle.mp hw.away_nodup)).1
  have hrelinked : Wheel (s.setLinks (detached s.links t)) now c due L (xs ++ .timer t :: ys) := by
    refine hw.relink (fun v x hx => hkeep x fun hm => hbeside v hm hx) fun u hu => ?_
    refine (hkeep _ ?_).1.trans (hw.cleared u hu)
    have hum := (hw.unlinked_of_none hu).2
    simpa using hum
  refine ⟨⟨c, hrelinked.forget (detached_self _), ha⟩, hr,
    hq.unlink_congr fun x hx => detached_of_ne hx, fun u hu => ?_⟩
  have hut : u ≠ t := by
    rintro rfl
    exact hqn hu
  rw [Function.update_of_ne hut]
  refine hlater u ?_
  have := hmem (.timer u) (List.mem_cons_of_mem _ hu)
  simpa using this

theorem Inside.clear (h : Inside s now due L Q) (hd : due t = none) :
    Inside (s.setLinks (clearedLinks s.links t)) now due L Q := by
  obtain ⟨⟨c, hw, ha⟩, hr, hq, hlater⟩ := h
  have hkeep : ∀ x ∈ Node.queued :: Q, (clearedLinks s.links t).next x = s.links.next x ∧
      (clearedLinks s.links t).prev x = s.links.prev x := by
    intro x hx
    refine clearedLinks_of_ne ?_
    rintro rfl
    rcases List.mem_cons.mp hx with hx | hx
    · cases hx
    · exact (hw.unlinked_of_none hd).2 hx
  exact ⟨⟨c, hw.clear hd, ha⟩, hr, hq.congr (fun x hx => (hkeep x hx).1) fun x hx => (hkeep x hx).2,
    hlater⟩

theorem Inside.del (h : Inside s now due L Q) :
    ∃ l L' Q', delTimer t s = .ok ((), s.setLinks l) ∧
      Inside (s.setLinks l) now (Function.update due t none) L' Q' ∧
      (∀ v, (L' v).Sublist (L v)) ∧ Q'.Sublist Q := by
  have hp := h.pending_iff (t := t)
  obtain ⟨c, hw, -⟩ := h.wheel
  cases hd : due t with
  | none =>
    rw [hd] at hp
    refine ⟨clearedLinks s.links t, L, Q, run_eq_of_wp ((wp_detachTimer_of_not hp).mpr ⟨rfl, rfl⟩), ?_⟩
    rw [update_none hd]
    exact ⟨h.clear hd, fun _ => .refl _, .refl _⟩
  | some d =>
    rw [hd] at hp
    have hrun := run_eq_of_wp ((wp_detachTimer hp).mpr ⟨rfl, rfl⟩)
    rcases hw.linked t d hd with ⟨v, hv⟩ | hm
    · obtain ⟨xs, ys, hL⟩ := List.append_of_mem hv
      exact ⟨_, _, _, hrun, h.detach hL, update_sublist hL, .refl _⟩
    · obtain ⟨xs, ys, rfl⟩ := List.append_of_mem hm
      exact ⟨_, _, _, hrun, h.unqueue, fun _ => .refl _,
        (List.sublist_cons_self _ ys).append_left xs⟩

/-! ## What is due -/

/-- The first timer of the current slot is due. -/
theorem Inside.head_due {xs : List Node} (h : Inside s now due L Q)
    (hL : L (0, now % 256) = .timer t :: xs) : due t = some now := by
  obtain ⟨c, hw, -⟩ := h.wheel
  obtain ⟨u, d, hu, hd, hp, -⟩ := hw.placed (0, now % 256) (.timer t) (by simp [hL])
  cases hu
  rw [hd]
  generalize hi : now % 256 = i at hp
  change Placed now c d 0 i at hp
  cases hp with
  | near hlo hhi => exact congrArg some (by omega)
  | far _ h1 => cases h1

/-- Timers that are due are in the current slot. -/
theorem Inside.mem_of_due (h : Inside s now due L Q) (hd : due t = some now) :
    .timer t ∈ L (0, now % 256) := by
  obtain ⟨c, hw, ha⟩ := h.wheel
  rcases hw.linked t now hd with ⟨⟨m, i⟩, hv⟩ | hm
  · obtain ⟨u, d, hu, hd', hp, -⟩ := hw.placed (m, i) _ hv
    cases hu
    cases hd.symm.trans hd'
    change Placed now c now m i at hp
    cases hp with
    | near => exact hv
    | far _ h1 h4 hlo =>
      have hpos : 0 < 2 ^ shift m := Nat.two_pow_pos _
      exact absurd ((Nat.le_div_iff_mul_le hpos).mp hlo) (Nat.not_le.mpr (ha m h1 h4))
  · have hlater := h.later t hm
    rw [hd] at hlater
    have hle := le_dueAt (now + 1) (s.expires t)
    rw [← Option.some.inj hlater] at hle
    omega

theorem Inside.due_finite (h : Inside s now due L Q) : {t | due t = some now}.Finite :=
  ((L (0, now % 256)).finite_toSet.preimage fun _ _ _ _ he => Node.timer.inj he).subset
    fun _ hd => h.mem_of_due hd

end Frog.Timer
