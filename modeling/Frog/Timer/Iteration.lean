import Frog.Timer.Cascade

/-!
# One iteration

Outside of an iteration every timer is in its slot. While one is under way, timers that handlers
add wait in `queued`, and the end of the iteration puts them into their slots.
-/

namespace Frog.Timer

set_option autoImplicit false
open Prog

variable {s : State} {now : Nat} {c : Nat → Nat} {due : Nat → Option Nat}
  {L : Nat × Nat → List Node} {R Q : List Node} {t : Nat} {v : Nat × Nat} {E : Stop → Prop}

/-- Between two iterations, with no vector cascaded for `now` yet. -/
structure Outside (s : State) (now : Nat) (due : Nat → Option Nat) (L : Nat × Nat → List Node) :
    Prop where
  wheel : ∃ c, Wheel s now c due L [] ∧ Behind now c 1
  running : s.running = false

/-- In an iteration, behind its cascade; `Q` is the list `queued`. -/
structure Inside (s : State) (now : Nat) (due : Nat → Option Nat) (L : Nat × Nat → List Node)
    (Q : List Node) : Prop where
  wheel : ∃ c, Wheel s now c due L Q ∧ Ahead now c
  running : s.running = true
  queue : RingList s.links .queued Q
  later : ∀ t, .timer t ∈ Q → due t = some (dueAt (now + 1) (s.expires t))

/-! ## Changes that keep the slots -/

/-- Links outside of the slots do not matter. -/
theorem Wheel.relink {l : Links Node} (h : Wheel s now c due L R)
    (hl : ∀ v, ∀ x ∈ slotHead v :: L v, l.next x = s.links.next x ∧ l.prev x = s.links.prev x)
    (hc : ∀ t, due t = none → l.next (.timer t) = .null) :
    Wheel (s.setLinks l) now c due L R := by
  refine ⟨h.jiffies, h.index_zero, h.index, h.fits, ⟨fun v => ?_, h.rings.apart⟩, h.placed, h.away,
    h.away_nodup, h.linked, hc⟩
  exact (h.rings.ring v).congr (fun x hx => (hl v x hx).1) fun x hx => (hl v x hx).2

/-- A timer that is due is somewhere. -/
theorem Wheel.unlinked_of_none (h : Wheel s now c due L R) (hd : due t = none) :
    Unlinked slotHead L (.timer t) ∧ .timer t ∉ R := by
  refine ⟨fun v hm => h.node_ne_timer hm hd rfl, fun hm => ?_⟩
  obtain ⟨-, u, d, hu, hd'⟩ := h.away _ hm
  cases hu
  rw [hd] at hd'
  cases hd'

/-- A timer that is not pending gets an expiry and is on its way. -/
theorem Wheel.schedule (h : Wheel s now c due L R) (hd : due t = none) (e : BitVec 32) (d : Nat) :
    Wheel (s.setExpires t e) now c (Function.update due t (some d)) L (R ++ [.timer t]) := by
  obtain ⟨hu, hR⟩ := h.unlinked_of_none hd
  have hkeep : ∀ u d, due u = some d → u ≠ t := by
    rintro u d hud rfl
    rw [hd] at hud
    cases hud
  refine ⟨h.jiffies, h.index_zero, h.index, h.fits, h.rings, ?_, ?_, ?_, ?_, ?_⟩
  · intro v x hx
    obtain ⟨u, d', rfl, hu', hp, he⟩ := h.placed v x hx
    have hne := hkeep u d' hu'
    refine ⟨u, d', rfl, by rwa [Function.update_of_ne hne], hp, fun h1 => ?_⟩
    exact (Function.update_of_ne hne ..).trans (he h1)
  · intro x hx
    rcases List.mem_append.mp hx with hx | hx
    · obtain ⟨hux, u, d', rfl, hu'⟩ := h.away x hx
      exact ⟨hux, u, d', rfl, by rwa [Function.update_of_ne (hkeep u d' hu')]⟩
    · rw [List.mem_singleton] at hx
      subst hx
      exact ⟨hu, t, d, rfl, Function.update_self ..⟩
  · rw [List.nodup_append]
    refine ⟨h.away_nodup, by simp, ?_⟩
    rintro x hx y hy rfl
    rw [List.mem_singleton] at hy
    exact hR (hy ▸ hx)
  · intro u d' hu'
    by_cases hut : u = t
    · exact .inr (by simp [hut])
    · rw [Function.update_of_ne hut] at hu'
      exact (h.linked u d' hu').imp id fun hm => List.mem_append_left _ hm
  · intro u hu'
    by_cases hut : u = t
    · subst hut
      rw [Function.update_self] at hu'
      cases hu'
    · rw [Function.update_of_ne hut] at hu'
      exact h.cleared u hu'

/-- A timer on its way is given up. -/
theorem Wheel.forget {xs ys : List Node} (h : Wheel s now c due L (xs ++ .timer t :: ys))
    (hn : s.links.next (.timer t) = .null) :
    Wheel s now c (Function.update due t none) L (xs ++ ys) := by
  have hmem : ∀ x ∈ xs ++ ys, x ∈ xs ++ .timer t :: ys := by
    intro x hx
    rcases List.mem_append.mp hx with hx | hx <;> simp [hx]
  have htx : Node.timer t ∉ xs ++ ys :=
    (List.nodup_cons.mp (List.nodup_middle.mp h.away_nodup)).1
  have hfree := (h.away (.timer t) (by simp)).1
  refine ⟨h.jiffies, h.index_zero, h.index, h.fits, h.rings, ?_, ?_, ?_, ?_, ?_⟩
  · intro v x hx
    obtain ⟨u, d, rfl, hu, hp⟩ := h.placed v x hx
    have hne : u ≠ t := by
      rintro rfl
      exact hfree v (List.mem_cons_of_mem _ hx)
    exact ⟨u, d, rfl, by rwa [Function.update_of_ne hne], hp⟩
  · intro x hx
    obtain ⟨hux, u, d, rfl, hu⟩ := h.away x (hmem x hx)
    have hne : u ≠ t := by
      rintro rfl
      exact htx hx
    exact ⟨hux, u, d, rfl, by rwa [Function.update_of_ne hne]⟩
  · exact (List.nodup_cons.mp (List.nodup_middle.mp h.away_nodup)).2
  · intro u d hu
    have hne : u ≠ t := by
      rintro rfl
      rw [Function.update_self] at hu
      cases hu
    rw [Function.update_of_ne hne] at hu
    refine (h.linked u d hu).imp id fun hm => ?_
    rcases List.mem_append.mp hm with hm | hm
    · exact List.mem_append_left _ hm
    · rcases List.mem_cons.mp hm with hm | hm
      · exact absurd (Node.timer.inj hm) hne
      · exact List.mem_append_right _ hm
  · intro u hu
    by_cases hut : u = t
    · rw [hut, hn]
    · rw [Function.update_of_ne hut] at hu
      exact h.cleared u hu

/-! ## The queue -/

/-- The list `queued` beside the slots. -/
theorem Inside.beside (h : Inside s now due L Q) (v : Nat × Nat) :
    List.Disjoint (.queued :: Q) (slotHead v :: L v) := by
  obtain ⟨c, hw, -⟩ := h.wheel
  intro x hx hv
  rcases List.mem_cons.mp hx with rfl | hx
  · exact hw.node_ne_queued hv rfl
  · exact (hw.away x hx).1 v hv

/-- The timers `R` go one after another to the ends of the slots that suit them. -/
inductive Settled (now : Nat) (due : Nat → Option Nat) :
    List Node → (Nat × Nat → List Node) → (Nat × Nat → List Node) → Prop
  | nil {L : Nat × Nat → List Node} : Settled now due [] L L
  | cons {R : List Node} {L L' : Nat × Nat → List Node} {t d : Nat} {w : Nat × Nat} :
    due t = some d → Level now d w.1 → Settled now due R (behind L t w) L' →
    Settled now due (.timer t :: R) L L'

/-- The walk over `queued` puts its timers into their slots. -/
theorem wp_requeue {k : Nat} {p : Node} (h : Wheel s now c due L R) (hr : s.running = false)
    (ht : Trail s.links.next .queued p R)
    (hd : ∀ t, .timer t ∈ R → due t = some (dueAt now (s.expires t)))
    (hk : R.length < k ∨ E .hang) :
    wp E (requeue k p) (fun _ u => ∃ L', Wheel u now c due L' [] ∧ Calm s u ∧
      Settled now due R L L') s := by
  induction k generalizing s L R p with
  | zero => exact hk.resolve_left (Nat.not_lt_zero _)
  | succ k ih =>
    cases R with
    | nil =>
      rw [show p = .queued from ht, requeue, if_pos rfl]
      exact ⟨L, h, .refl s, .nil⟩
    | cons x R =>
      obtain ⟨rfl, ht'⟩ := ht
      obtain ⟨-, t, d, rfl, -⟩ := h.away p (by simp)
      have hq : Node.timer t ≠ .queued := Node.noConfusion
      rw [requeue, if_neg hq]
      simp only [wp_bind, wp_listEntry, wp_nextOf]
      obtain ⟨w, hw, hadd, hput⟩ := h.internalAdd hr (hd t (by simp))
      rw [wp_of_ok hadd]
      obtain ⟨htR, -⟩ := List.nodup_cons.mp h.away_nodup
      have hnext : ∀ y ∈ R, (s.put t w).links.next y = s.links.next y := by
        intro y hy
        have hyt : y ≠ .timer t := fun he => htR (he ▸ hy)
        exact h.put_next hyt ((h.away y (List.mem_cons_of_mem _ hy)).1 w)
      refine wp_mono (ih hput hr (ht'.congr hnext) (fun u hu => hd u (List.mem_cons_of_mem _ hu))
        (hk.imp (fun hlt => Nat.lt_of_succ_lt_succ hlt) id)) ?_
      rintro _ u ⟨L', hL', hcalm, hsettled⟩
      exact ⟨L', hL', h.put_calm.trans hcalm, .cons (hd t (by simp)) hw hsettled⟩

/-! ## The steps of an iteration -/

theorem Ahead.of_start (hf : Fits now c) (hd : ¬ 256 ∣ now) : Ahead now c := by
  intro n h1 h4
  refine lt_of_not_dvd hf h1 h4 fun h => hd ?_
  exact (shift_dvd (m := 1) h1).trans h

/-- The start of an iteration. -/
theorem wp_begin {fuel : Nat} (h : Outside s now due L) (ht : ¬ (s.ticks - s.timerJiffies).slt 0)
    (hk : ∀ c, Wheel s now c due L [] →
      ∀ m, 1 ≤ m → m ≤ 4 → (L (m, c m % 64)).length < fuel ∨ E .hang) :
    wp E (doLoop fuel) (fun _ u => u.phase = .serve ∧ u.ticks = s.ticks ∧
      ∃ L', Inside u now due L' [] ∧ Cascaded now due 1 L L') s := by
  obtain ⟨⟨c, hw, hb⟩, hr⟩ := h
  let l := s.links.initListHead .queued
  have hkeep : ∀ x, x ≠ Node.queued → l.next x = s.links.next x ∧ l.prev x = s.links.prev x :=
    fun x hx => by simp [l, Links.initListHead, hx]
  have hwl : Wheel (s.setLinks l) now c due L [] := by
    refine hw.relink (fun v x hx => hkeep x (hw.node_ne_queued hx)) fun t hd => ?_
    rw [(hkeep (.timer t) Node.noConfusion).1]
    exact hw.cleared t hd
  -- the rest of the step, once the vectors are cascaded
  have hrest : ∀ u c' L', Wheel u now c' due L' [] → Ahead now c' → Calm (s.setLinks l) u →
      Inside { u with running := true, phase := .serve } now due L' [] := by
    intro u c' L' hu ha hcalm
    refine ⟨⟨c', ⟨hu.jiffies, hu.index_zero, hu.index, hu.fits, hu.rings, hu.placed, hu.away,
      hu.away_nodup, hu.linked, hu.cleared⟩, ha⟩, rfl, ⟨⟨?_, ?_⟩, by simp⟩, by simp⟩
    · refine hcalm.next_eq.trans ?_
      simp [l, State.setLinks, Links.initListHead]
    · refine hcalm.prev_eq.trans ?_
      simp [l, State.setLinks, Links.initListHead]
  unfold doLoop
  simp only [wp_bind, wp_get]
  rw [if_neg ht]
  simp only [wp_bind, wp_setLinks]
  change wp E _ _ (s.setLinks l)
  by_cases hz : s.index 0 = 0
  · rw [if_pos hz, wp_bind]
    have hdvd : 2 ^ shift 1 ∣ now := by
      have := hw.index_zero
      exact Nat.dvd_of_mod_eq_zero (this.symm.trans hz)
    refine wp_mono (wp_cascadeFrom (Nat.le_refl 1) rfl (fun _ => hdvd) hb hwl hr (hk c hw)) ?_
    rintro _ u ⟨c', L', hu, ha, hcalm, hcasc⟩
    rw [wp_modify]
    exact ⟨rfl, hcalm.ticks_eq, L', hrest u c' L' hu ha hcalm, hcasc⟩
  · rw [if_neg hz, wp_modify]
    have hdvd : ¬ 256 ∣ now := fun hd => hz (hw.index_zero.trans (Nat.mod_eq_zero_of_dvd hd))
    exact ⟨rfl, rfl, L, hrest _ c L hwl (.of_start hw.fits hdvd) (.refl _), .done⟩

/-- A node outside of the slots is not touched when a timer leaves one. -/
theorem Wheel.take_keep {l : Links Node} {xs ys : List Node} {x : Node} (h : Wheel s now c due L R)
    (hL : L v = xs ++ .timer t :: ys)
    (hl : ∀ x, x ≠ .timer t →
      l.next x = (s.links.unlink (.timer t)).next x ∧ l.prev x = (s.links.unlink (.timer t)).prev x)
    (hx : x ∉ slotHead v :: L v) : l.next x = s.links.next x ∧ l.prev x = s.links.prev x := by
  have hr := h.rings.ring v
  rw [hL] at hr
  have hxt : x ≠ .timer t := by
    rintro rfl
    exact hx (by simp [hL])
  have hp : x ≠ s.links.prev (.timer t) := by
    rintro rfl
    have hm := hr.prev_of_append
    refine hx ?_
    rw [hL]
    simp only [List.mem_cons, List.mem_append] at hm ⊢
    tauto
  have hn : x ≠ s.links.next (.timer t) := by
    rintro rfl
    have hm := hr.next_of_append
    refine hx ?_
    rw [hL]
    simp only [List.mem_cons, List.mem_append] at hm ⊢
    tauto
  obtain ⟨h1, h2⟩ := hl x hxt
  exact ⟨h1.trans (Links.unlink_next_of_ne hp), h2.trans (Links.unlink_prev_of_ne hn)⟩

/-- The links of a pending timer that was detached. -/
def detached (l : Links Node) (t : Nat) : Links Node :=
  ((l.del .null (.timer t)).setPrev (.timer t) .null).setNext (.timer t) .null

theorem detached_of_ne {l : Links Node} {x : Node} (hx : x ≠ .timer t) :
    (detached l t).next x = (l.unlink (.timer t)).next x ∧
      (detached l t).prev x = (l.unlink (.timer t)).prev x := by
  simp [detached, Links.del, hx]

theorem detached_self (l : Links Node) : (detached l t).next (.timer t) = .null := by
  simp [detached]

theorem wp_detachTimer {Q : Unit → State → Prop} (hp : s.pending t = true) :
    wp E (detachTimer t) Q s ↔ Q () (s.setLinks (detached s.links t)) := by
  unfold detachTimer
  simp only [wp_bind, wp_get, hp, if_true, wp_setLinks]
  rfl

theorem wp_detachTimer_of_not {Q : Unit → State → Prop} (hp : s.pending t = false) :
    wp E (detachTimer t) Q s ↔
      Q () (s.setLinks ((s.links.setPrev (.timer t) .null).setNext (.timer t) .null)) := by
  unfold detachTimer
  simp only [wp_bind, wp_get, hp, Bool.false_eq_true, if_false, wp_setLinks]

/-- A timer is detached from its slot. -/
theorem Wheel.detach {xs ys : List Node} (h : Wheel s now c due L R)
    (hL : L v = xs ++ .timer t :: ys) :
    Wheel (s.setLinks (detached s.links t)) now c (Function.update due t none)
      (Function.update L v (xs ++ ys)) R :=
  @Wheel.forget _ _ _ _ _ _ [] _ (h.take hL fun _ hx => detached_of_ne hx) (detached_self _)

theorem Wheel.pending_of_mem (h : Wheel s now c due L R) (hm : .timer t ∈ L v) :
    s.pending t = true := by
  obtain ⟨xs, ys, hL⟩ := List.append_of_mem hm
  have hr := h.rings.ring v
  rw [hL] at hr
  have hn := hr.next_of_append
  refine decide_eq_true fun he => h.node_ne_null (v := v) ?_ he
  rw [hL]
  simp only [List.mem_append, List.mem_cons] at hn ⊢
  tauto

theorem Inside.pending_of_mem (h : Inside s now due L Q) (hm : .timer t ∈ Q) :
    s.pending t = true := by
  obtain ⟨c, hw, -⟩ := h.wheel
  obtain ⟨xs, ys, hQ⟩ := List.append_of_mem hm
  have hr := h.queue
  rw [hQ] at hr
  have hn := hr.next_of_append
  refine decide_eq_true fun he => ?_
  rw [he] at hn
  rcases List.mem_append.mp hn with hn | hn
  · obtain ⟨-, u, d, hu, -⟩ := hw.away .null (by simp [hQ, hn])
    cases hu
  · cases List.mem_singleton.mp hn

/-- A timer is detached from its slot in an iteration. -/
theorem Inside.detach {xs ys : List Node} (h : Inside s now due L Q)
    (hL : L v = xs ++ .timer t :: ys) :
    Inside (s.setLinks (detached s.links t)) now (Function.update due t none)
      (Function.update L v (xs ++ ys)) Q := by
  have hbeside := h.beside v
  obtain ⟨⟨c, hw, ha⟩, hr, hq, hlater⟩ := h
  have hkeep : ∀ x ∈ Node.queued :: Q, (detached s.links t).next x = s.links.next x ∧
      (detached s.links t).prev x = s.links.prev x := fun x hx =>
    hw.take_keep hL (fun _ hx => detached_of_ne hx) fun hm => hbeside hx hm
  refine ⟨⟨c, hw.detach hL, ha⟩, hr, hq.congr (fun x hx => (hkeep x hx).1)
    fun x hx => (hkeep x hx).2, fun u hu => ?_⟩
  have hut : u ≠ t := by
    rintro rfl
    have hmem : Node.timer u ∈ slotHead v :: L v := by simp [hL]
    exact hbeside (List.mem_cons_of_mem _ hu) hmem
  rw [Function.update_of_ne hut]
  exact hlater u hu

/-- One pass at `repeat`: a handler is called or the iteration ends. -/
theorem wp_doServe {fuel : Nat} (h : Inside s now due L Q) (hk : Q.length < fuel ∨ E .hang) :
    wp E (doServe fuel) (fun _ u => u.ticks = s.ticks ∧
      ((∃ t xs, L (0, now % 256) = .timer t :: xs ∧ u.phase = .handler t ∧
          Inside u now (Function.update due t none)
            (Function.update L (0, now % 256) xs) Q) ∨
        L (0, now % 256) = [] ∧ u.phase = .loop ∧ ∃ L', Outside u (now + 1) due L' ∧
          Settled (now + 1) due Q L L')) s := by
  have hin := h
  obtain ⟨⟨c, hw, ha⟩, hr, hq, hlater⟩ := h
  have hring := hw.rings.ring (0, now % 256)
  unfold doServe
  simp only [wp_bind, wp_get, wp_nextOf, hw.index_zero]
  change wp E (if s.links.next (slotHead (0, now % 256)) ≠ slotHead (0, now % 256) then _ else _) _ s
  cases hlist : L (0, now % 256) with
  | cons x xs =>
    obtain ⟨t, d, rfl, -⟩ := hw.placed _ x (by rw [hlist]; simp)
    rw [hlist] at hring
    have hne : Node.timer t ≠ slotHead (0, now % 256) := Node.noConfusion
    have hp : s.pending t = true := hw.pending_of_mem (v := (0, now % 256)) (by simp [hlist])
    have hnx : s.links.next (.vec 0 (now % 256)) = .timer t := hring.path.1
    rw [show s.links.next (slotHead (0, now % 256)) = .timer t from hnx, if_pos hne]
    simp only [wp_bind, hnx, wp_listEntry]
    rw [wp_detachTimer hp, wp_modify]
    obtain ⟨⟨c', hw', ha'⟩, hr', hq', hl'⟩ := @Inside.detach _ _ _ _ _ _ _ [] _ hin hlist
    refine ⟨rfl, .inl ⟨t, xs, rfl, rfl, ⟨c', ?_, ha'⟩, hr', hq', hl'⟩⟩
    exact ⟨hw'.jiffies, hw'.index_zero, hw'.index, hw'.fits, hw'.rings, hw'.placed, hw'.away,
      hw'.away_nodup, hw'.linked, hw'.cleared⟩
  | nil =>
    rw [hlist] at hring
    rw [show s.links.next (slotHead (0, now % 256)) = slotHead (0, now % 256) from hring.path.1,
      if_neg (fun hne => hne rfl)]
    simp only [wp_bind, wp_modify, wp_nextOf]
    let u : State := { s with
      running := false
      timerJiffies := s.timerJiffies + 1
      index := Function.update s.index 0 ((s.index 0 + 1) % 256) }
    change wp E (requeue fuel (u.links.next .queued)) _ u
    have hidx : ∀ m, 1 ≤ m → u.index m = s.index m :=
      fun m hm => Function.update_of_ne (Nat.ne_of_gt hm) ..
    have hu : Wheel u (now + 1) c due L Q := by
      refine ⟨?_, ?_, fun m h1 h4 => (hidx m h1).trans (hw.index m h1 h4), ?_, hw.rings, ?_, hw.away,
        hw.away_nodup, hw.linked, hw.cleared⟩
      · change s.timerJiffies + 1 = _
        rw [hw.jiffies, BitVec.ofNat_add]
        rfl
      · change Function.update s.index 0 ((s.index 0 + 1) % 256) 0 = _
        rw [Function.update_self, hw.index_zero]
        omega
      · intro m h1 h4
        exact ⟨ha m h1 h4, (hw.fits m h1 h4).2.trans (by omega)⟩
      · intro v x hx
        obtain ⟨t, d, rfl, hd, hp, he⟩ := hw.placed v x hx
        refine ⟨t, d, rfl, hd, ?_, he⟩
        obtain ⟨m, i⟩ := v
        change Placed now c d m i at hp
        change Placed (now + 1) c d m i
        cases hp with
        | near hlo hhi =>
          refine .near (Nat.lt_of_le_of_ne hlo ?_) (by omega)
          -- the list of this iteration is empty
          rintro rfl
          rw [hlist] at hx
          cases hx
        | far _ h1 h4 hlo hhi => exact .far m h1 h4 hlo hhi
    have hb' : Behind (now + 1) c 1 := fun m h1 h4 =>
      ⟨fun hm => absurd h1 (Nat.not_le.mpr hm), fun _ => by
        have := (hw.fits m h1 h4).2
        omega⟩
    refine wp_mono (wp_requeue hu rfl hq.path.trail hlater hk) ?_
    rintro _ w ⟨L', hL', hcalm, hsettled⟩
    refine ⟨hcalm.ticks_eq, .inr ⟨trivial, rfl, L', ⟨⟨c, ?_, hb'⟩, hcalm.running_eq⟩, hsettled⟩⟩
    exact ⟨hL'.jiffies, hL'.index_zero, hL'.index, hL'.fits, hL'.rings, hL'.placed, hL'.away,
      hL'.away_nodup, hL'.linked, hL'.cleared⟩

end Frog.Timer
