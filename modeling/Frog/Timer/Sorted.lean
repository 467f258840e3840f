import Frog.Timer.Agenda

/-!
# Timers in their slots

`Wheel s now c due L R` says that before iteration `now` every timer with a due iteration is in the
slot where it belongs or among those `R` that are on their way. The operations on single timers
and the cascade keep it.
-/

namespace Frog.Timer

set_option autoImplicit false
open Prog

def slotHead (v : Nat × Nat) : Node := .vec v.1 v.2

structure Wheel (s : State) (now : Nat) (c : Nat → Nat) (due : Nat → Option Nat)
    (L : Nat × Nat → List Node) (R : List Node) : Prop where
  jiffies : s.timerJiffies = BitVec.ofNat 32 now
  index_zero : s.index 0 = now % 256
  index : ∀ n, 1 ≤ n → n ≤ 4 → s.index n = c n % 64
  fits : Fits now c
  rings : RingLists s.links slotHead L
  placed : ∀ v, ∀ x ∈ L v, ∃ t d, x = .timer t ∧ due t = some d ∧ Placed now c d v.1 v.2 ∧
    (1 ≤ v.1 → s.expires t = BitVec.ofNat 32 d)
  away : ∀ x ∈ R, Unlinked slotHead L x ∧ ∃ t d, x = .timer t ∧ due t = some d
  away_nodup : R.Nodup
  linked : ∀ t d, due t = some d → (∃ v, .timer t ∈ L v) ∨ .timer t ∈ R
  cleared : ∀ t, due t = none → s.links.next (.timer t) = .null

/-- The part of the state that is not about links and vectors, with the links of `queued`. -/
structure Calm (s t : State) : Prop where
  expires_eq : t.expires = s.expires
  ticks_eq : t.ticks = s.ticks
  running_eq : t.running = s.running
  phase_eq : t.phase = s.phase
  next_eq : t.links.next .queued = s.links.next .queued
  prev_eq : t.links.prev .queued = s.links.prev .queued

theorem Calm.refl (s : State) : Calm s s := ⟨rfl, rfl, rfl, rfl, rfl, rfl⟩

theorem Calm.trans {s t u : State} (h : Calm s t) (h' : Calm t u) : Calm s u :=
  ⟨h'.expires_eq.trans h.expires_eq, h'.ticks_eq.trans h.ticks_eq,
    h'.running_eq.trans h.running_eq, h'.phase_eq.trans h.phase_eq, h'.next_eq.trans h.next_eq,
    h'.prev_eq.trans h.prev_eq⟩

section
variable {s : State} {now : Nat} {c : Nat → Nat} {due : Nat → Option Nat}
  {L : Nat × Nat → List Node} {R : List Node} {t : Nat} {v : Nat × Nat} {E : Stop → Prop}

/-- The nodes of a slot. -/
theorem Wheel.node (h : Wheel s now c due L R) {x : Node} (hx : x ∈ slotHead v :: L v) :
    x = slotHead v ∨ ∃ t d, x = .timer t ∧ due t = some d := by
  rcases List.mem_cons.mp hx with rfl | hx
  · exact .inl rfl
  · obtain ⟨t, d, rfl, hd, -⟩ := h.placed v x hx
    exact .inr ⟨t, d, rfl, hd⟩

theorem Wheel.node_ne_queued (h : Wheel s now c due L R) {x : Node} (hx : x ∈ slotHead v :: L v) :
    x ≠ .queued := by
  rintro rfl
  rcases h.node hx with hx | ⟨t, d, hx, -⟩ <;> cases hx

theorem Wheel.node_ne_null (h : Wheel s now c due L R) {x : Node} (hx : x ∈ slotHead v :: L v) :
    x ≠ .null := by
  rintro rfl
  rcases h.node hx with hx | ⟨t, d, hx, -⟩ <;> cases hx

/-- A timer that is not due is not a node of a slot. -/
theorem Wheel.node_ne_timer (h : Wheel s now c due L R) {x : Node} (hx : x ∈ slotHead v :: L v)
    (hd : due t = none) : x ≠ .timer t := by
  rintro rfl
  rcases h.node hx with hx | ⟨u, d, hx, hu⟩
  · cases hx
  · cases hx
    rw [hd] at hu
    cases hu

@[simp] theorem wp_setLinks {Q : Unit → State → Prop} {f : Links Node → Links Node} :
    wp E (setLinks f) Q s ↔ Q () (s.setLinks (f s.links)) := Iff.rfl

@[simp] theorem wp_nextOf {Q : Node → State → Prop} {n : Node} :
    wp E (nextOf n) Q s ↔ Q (s.links.next n) s := Iff.rfl

@[simp] theorem wp_listEntry {Q : Nat → State → Prop} :
    wp E (listEntry (.timer t)) Q s ↔ Q t s := Iff.rfl

/-! ## Into a slot -/

def State.put (s : State) (t : Nat) (v : Nat × Nat) : State :=
  s.setLinks (s.links.addTail (.timer t) (slotHead v))

/-- A timer at the end of the list of a slot. -/
def behind (L : Nat × Nat → List Node) (t : Nat) (v : Nat × Nat) : Nat × Nat → List Node :=
  Function.update L v (L v ++ [.timer t])

theorem mem_behind {w : Nat × Nat} {x : Node} (hx : x ∈ behind L t v w) :
    x ∈ L w ∨ x = .timer t ∧ w = v := by
  by_cases hw : w = v
  · subst hw
    rw [behind, Function.update_self, List.mem_append, List.mem_singleton] at hx
    exact hx.imp id fun hx => ⟨hx, rfl⟩
  · rw [behind, Function.update_of_ne hw] at hx
    exact .inl hx

/-- The links of a node outside of the slots stay. -/
theorem Wheel.put_next (h : Wheel s now c due L R) {x : Node} (hx : x ≠ .timer t)
    (hu : x ∉ slotHead v :: L v) : (s.put t v).links.next x = s.links.next x := by
  refine Links.addTail_next_of_ne hx ?_
  rintro rfl
  exact hu (h.rings.ring v).prev_mem

theorem Wheel.put_calm (h : Wheel s now c due L R) : Calm s (s.put t v) := by
  refine ⟨rfl, rfl, rfl, rfl, h.put_next Node.noConfusion fun hm => h.node_ne_queued hm rfl, ?_⟩
  exact Links.addTail_prev_of_ne Node.noConfusion Node.noConfusion

theorem Wheel.put {d : Nat} (h : Wheel s now c due L (.timer t :: R)) (hd : due t = some d)
    (hp : Placed now c d v.1 v.2) (he : 1 ≤ v.1 → s.expires t = BitVec.ofNat 32 d) :
    Wheel (s.put t v) now c due (behind L t v) R := by
  have hfree := (h.away (.timer t) (by simp)).1
  obtain ⟨htR, hRd⟩ := List.nodup_cons.mp h.away_nodup
  have hkeep : ∀ w x, x ∈ L w → x ∈ behind L t v w := by
    intro w x hx
    by_cases hw : w = v
    · subst hw
      rw [behind, Function.update_self]
      exact List.mem_append_left _ hx
    · rwa [behind, Function.update_of_ne hw]
  refine ⟨h.jiffies, h.index_zero, h.index, h.fits, h.rings.addTail hfree, ?_, ?_, hRd, ?_, ?_⟩
  · intro w x hx
    rcases mem_behind hx with hx | ⟨rfl, rfl⟩
    · exact h.placed w x hx
    · exact ⟨t, d, rfl, hd, hp, he⟩
  · intro x hx
    obtain ⟨hu, hdue⟩ := h.away x (List.mem_cons_of_mem _ hx)
    refine ⟨fun w hw => ?_, hdue⟩
    rcases List.mem_cons.mp hw with hw | hw
    · exact hu w (by simp [hw])
    · rcases mem_behind hw with hw | ⟨rfl, -⟩
      · exact hu w (List.mem_cons_of_mem _ hw)
      · exact htR hx
  · intro u e hu
    rcases h.linked u e hu with ⟨w, hw⟩ | hm
    · exact .inl ⟨w, hkeep w _ hw⟩
    · rcases List.mem_cons.mp hm with hm | hm
      · refine .inl ⟨v, ?_⟩
        rw [hm, behind, Function.update_self]
        simp
      · exact .inr hm
  · intro u hu
    have hut : Node.timer u ≠ .timer t := by
      intro he
      cases he
      rw [hd] at hu
      cases hu
    rw [h.put_next hut fun hm => h.node_ne_timer hm hu rfl]
    exact h.cleared u hu

/-- `internal_add_timer` outside of an iteration. -/
theorem Wheel.internalAdd (h : Wheel s now c due L (.timer t :: R)) (hr : s.running = false)
    (hd : due t = some (dueAt now (s.expires t))) :
    ∃ v, Level now (dueAt now (s.expires t)) v.1 ∧
      internalAddTimer t s = .ok ((), s.put t v) ∧ Wheel (s.put t v) now c due (behind L t v) R := by
  obtain ⟨n, i, hv, hp, he, hl⟩ := vecFor_placed hr h.jiffies h.index_zero h.fits (s.expires t)
  refine ⟨(n, i), hl, ?_, h.put hd hp he⟩
  have hadd := (h.rings.ring (n, i)).add_prev ((h.away (.timer t) (by simp)).1 (n, i))
  change Except.ok ((), s.setLinks (s.links.add (.timer t)
    (s.links.prev (s.vecFor (s.expires t))))) = _
  rw [hv, show Node.vec n i = slotHead (n, i) from rfl, hadd]
  rfl

/-! ## Out of a slot -/

/-- A timer leaves the list of a slot and is on its way. -/
theorem Wheel.take {l : Links Node} {xs ys : List Node} (h : Wheel s now c due L R)
    (hL : L v = xs ++ .timer t :: ys)
    (hl : ∀ x, x ≠ .timer t →
      l.next x = (s.links.unlink (.timer t)).next x ∧ l.prev x = (s.links.unlink (.timer t)).prev x) :
    Wheel (s.setLinks l) now c due (Function.update L v (xs ++ ys)) (.timer t :: R) := by
  have hsub : ∀ w, ∀ x ∈ Function.update L v (xs ++ ys) w, x ∈ L w := by
    intro w x hx
    by_cases hw : w = v
    · subst hw
      rw [Function.update_self] at hx
      rw [hL]
      rcases List.mem_append.mp hx with hx | hx <;> simp [hx]
    · rwa [Function.update_of_ne hw] at hx
  have htv : Node.timer t ∈ L v := by simp [hL]
  obtain ⟨t', d, ht', hd, -⟩ := h.placed v _ htv
  cases ht'
  have hr := h.rings.ring v
  rw [hL] at hr
  refine ⟨h.jiffies, h.index_zero, h.index, h.fits, h.rings.unlink_congr hL hl,
    fun w x hx => h.placed w x (hsub w x hx), ?_, ?_, ?_, ?_⟩
  · intro x hx
    rcases List.mem_cons.mp hx with rfl | hx
    · exact ⟨h.rings.removed_unlinked hL, t, d, rfl, hd⟩
    · obtain ⟨hu, hdue⟩ := h.away x hx
      refine ⟨fun w hw => hu w ?_, hdue⟩
      rcases List.mem_cons.mp hw with hw | hw
      · simp [hw]
      · exact List.mem_cons_of_mem _ (hsub w x hw)
  · refine List.nodup_cons.mpr ⟨fun hm => (h.away _ hm).1 v (List.mem_cons_of_mem _ htv),
      h.away_nodup⟩
  · intro u e hu
    rcases h.linked u e hu with ⟨w, hw⟩ | hm
    · by_cases hut : u = t
      · exact .inr (by simp [hut])
      · refine .inl ⟨w, ?_⟩
        by_cases hwv : w = v
        · subst hwv
          rw [Function.update_self]
          rw [hL, List.mem_append, List.mem_cons] at hw
          rcases hw with hw | hw | hw
          · exact List.mem_append_left _ hw
          · exact absurd (Node.timer.inj hw) hut
          · exact List.mem_append_right _ hw
        · rwa [Function.update_of_ne hwv]
    · exact .inr (List.mem_cons_of_mem _ hm)
  · intro u hu
    have hut : Node.timer u ≠ .timer t := by
      intro he
      cases he
      rw [hd] at hu
      cases hu
    have hprev : Node.timer u ≠ s.links.prev (.timer t) := by
      have hm := hr.prev_of_append
      refine (h.node_ne_timer (v := v) ?_ hu).symm
      rw [hL]
      simp only [List.mem_cons, List.mem_append] at hm ⊢
      tauto
    change l.next (.timer u) = _
    rw [(hl _ hut).1, Links.unlink_next_of_ne hprev]
    exact h.cleared u hu

end

end Frog.Timer
