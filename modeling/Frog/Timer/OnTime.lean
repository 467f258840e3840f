import Frog.Timer.Calls
import Mathlib.Data.Prod.Lex
import Mathlib.Data.Set.Card

/-!
# Handlers run on time

The agenda says what the timers are for: a timer that is added is due in a known iteration, and its
entry ends when its handler is called or it is deleted. Every run of the wheel keeps its agenda.
-/

namespace Frog.Timer

set_option autoImplicit false
open Prog

/-- `now` counts the iterations, `ticks` the ticks, both without end. -/
structure Agenda where
  now : Nat
  ticks : Nat
  due : Nat → Option Nat

namespace Agenda

def init : Agenda := ⟨0, 0, fun _ => none⟩

/-- The iteration from which on a timer can run that is added in the phase `p`. -/
def first (a : Agenda) : Phase → Nat
  | .handler _ => a.now + 1
  | _ => a.now

def put (a : Agenda) (t d : Nat) : Agenda := { a with due := Function.update a.due t (some d) }

def drop (a : Agenda) (t : Nat) : Agenda := { a with due := Function.update a.due t none }

/-- The agenda after an event that leads from the phase `p` to the phase `p'`. -/
def after (a : Agenda) (p : Phase) (e : Event) (p' : Phase) : Agenda :=
  match e with
  | .add t x => if a.due t = none then a.put t (dueAt (a.first p) x) else a
  | .del t => a.drop t
  | .tick => { a with ticks := a.ticks + 1 }
  | .go =>
    match p, p' with
    | .serve, .handler t => a.drop t
    | .serve, .loop => { a with now := a.now + 1 }
    | _, _ => a
  | .bh | .ret => a

end Agenda

def Watched (x : State × Agenda) (e : Event) (y : State × Agenda) : Prop :=
  Step x.1 e y.1 ∧ y.2 = x.2.after x.1.phase e y.1.phase

/-! ## The invariant -/

/-- The slots hold the lists `L` and `queued` holds `Q`. -/
inductive Held (s : State) (a : Agenda) (L : Nat × Nat → List Node) : List Node → Prop
  | outside : s.phase = .idle ∨ s.phase = .loop → Outside s a.now a.due L →
      a.now ≤ a.ticks + 1 → Held s a L []
  | inside (Q : List Node) : s.phase = .serve ∨ (∃ t, s.phase = .handler t) →
      Inside s a.now a.due L Q → a.now ≤ a.ticks → Held s a L Q

/-- In an iteration. -/
def Phase.inside : Phase → Bool
  | .idle | .loop => false
  | .serve | .handler _ => true

/-- What an event that leads from the phase `p` to the phase `p'` makes of the lists. -/
inductive Turn (a : Agenda) (L : Nat × Nat → List Node) (Q : List Node) :
    Event → Phase → Phase → (Nat × Nat → List Node) → List Node → Prop
  | keep {e : Event} {p p' : Phase} : p'.inside = p.inside →
    (∀ t x, e = .add t x → a.due t ≠ none) → (a.after p e p').now = a.now →
    (a.after p e p').due = a.due → Turn a L Q e p p' L Q
  | put {t : Nat} {x : BitVec 32} {p p' : Phase} {v : Nat × Nat} : p'.inside = p.inside →
    p.inside = false → a.due t = none → a.first p = a.now → Level a.now (dueAt a.now x) v.1 →
    Turn a L Q (.add t x) p p' (behind L t v) Q
  | queue {t : Nat} {x : BitVec 32} {p p' : Phase} : p'.inside = p.inside → p.inside = true →
    a.due t = none → a.first p = a.now + 1 →
    Turn a L Q (.add t x) p p' L (Q ++ [.timer t])
  | remove {t : Nat} {p p' : Phase} {L' : Nat × Nat → List Node} {Q' : List Node} :
    p'.inside = p.inside → (∀ v, (L' v).Sublist (L v)) → Q'.Sublist Q → Turn a L Q (.del t) p p' L' Q'
  | start {L' : Nat × Nat → List Node} : Cascaded a.now a.due 1 L L' →
    Turn a L Q .go .loop .serve L' Q
  | call {t : Nat} {xs : List Node} : L (0, a.now % 256) = .timer t :: xs →
    Turn a L Q .go .serve (.handler t) (Function.update L (0, a.now % 256) xs) Q
  | finish {L' : Nat × Nat → List Node} : Settled (a.now + 1) a.due Q L L' →
    Turn a L Q .go .serve .loop L' []

/-- The lists that an event finds and those that it leaves. -/
def Turns (s : State) (a : Agenda) (e : Event) (u : State) (a' : Agenda) : Prop :=
  ∃ L Q L' Q', Held s a L Q ∧ Held u a' L' Q' ∧ Turn a L Q e s.phase u.phase L' Q'

structure Agrees (s : State) (a : Agenda) : Prop where
  clock : s.ticks = BitVec.ofNat 32 a.ticks
  near : a.ticks < a.now + 2 ^ 31
  held : ∃ L Q, Held s a L Q

variable {s : State} {a : Agenda} {t : Nat} {E : Stop → Prop} {fuel : Nat}
  {L : Nat × Nat → List Node} {Q : List Node}

theorem Held.jiffies (h : Held s a L Q) : s.timerJiffies = BitVec.ofNat 32 a.now := by
  cases h with
  | outside _ ho _ =>
    obtain ⟨⟨c, hw, -⟩, -⟩ := ho
    exact hw.jiffies
  | inside _ _ hi _ =>
    obtain ⟨c, hw, -⟩ := hi.wheel
    exact hw.jiffies

theorem Held.pending_iff (h : Held s a L Q) (t : Nat) : s.pending t = (a.due t).isSome := by
  cases h with
  | outside _ ho _ => exact ho.pending_iff
  | inside _ _ hi _ => exact hi.pending_iff

theorem Held.le (h : Held s a L Q) : a.now ≤ a.ticks + 1 := by
  cases h with
  | outside _ _ hle => exact hle
  | inside _ _ _ hle => exact Nat.le_succ_of_le hle

theorem Held.due_le (h : Held s a L Q) {d : Nat} (hd : a.due t = some d) : a.now ≤ d := by
  have hwheel : ∀ {c L R}, Wheel s a.now c a.due L R →
      (∀ u, .timer u ∈ R → a.due u = some (dueAt (a.now + 1) (s.expires u))) → a.now ≤ d := by
    intro c L R hw hR
    rcases hw.linked t d hd with ⟨v, hv⟩ | hm
    · obtain ⟨u, d', hu, hd', hp, -⟩ := hw.placed v _ hv
      cases hu
      cases hd.symm.trans hd'
      exact hp.le hw.fits
    · have hlater := hR t hm
      rw [hd] at hlater
      have hle := le_dueAt (a.now + 1) (s.expires t)
      rw [← Option.some.inj hlater] at hle
      omega
  cases h with
  | outside _ ho _ =>
    obtain ⟨⟨c, hw, -⟩, -⟩ := ho
    exact hwheel hw fun u hm => nomatch hm
  | inside _ _ hi _ =>
    obtain ⟨c, hw, -⟩ := hi.wheel
    exact hwheel hw hi.later

theorem Held.turned {u : State} {a' : Agenda} {e : Event} {L' : Nat × Nat → List Node}
    {Q' : List Node} (h : Held s a L Q) (h' : Held u a' L' Q')
    (ht : Turn a L Q e s.phase u.phase L' Q') (hc : u.ticks = BitVec.ofNat 32 a'.ticks)
    (hn : a'.ticks < a'.now + 2 ^ 31) : Agrees u a' ∧ Turns s a e u a' :=
  ⟨⟨hc, hn, L', Q', h'⟩, L, Q, L', Q', h, h', ht⟩

/-- The test of the loop in 32 bits. -/
theorem Agrees.loop_test (h : Agrees s a) :
    (s.ticks - s.timerJiffies).slt 0 = true ↔ a.ticks < a.now := by
  obtain ⟨hclock, hnear, L, Q, hheld⟩ := h
  have hle := hheld.le
  rw [slt_zero_iff, hclock, hheld.jiffies]
  by_cases hlt : a.ticks < a.now
  · have hnow : a.now = a.ticks + 1 := by omega
    rw [hnow, BitVec.ofNat_add]
    have hneg : BitVec.ofNat 32 a.ticks - (BitVec.ofNat 32 a.ticks + BitVec.ofNat 32 1) = -1 := by
      rw [sub_add_cancel_left]
      rfl
    rw [hneg]
    exact iff_of_true (by decide) (by omega)
  · obtain ⟨k, hk⟩ := Nat.exists_eq_add_of_le (Nat.le_of_not_lt hlt)
    have hk31 : k < 2 ^ 31 := by omega
    rw [hk, BitVec.ofNat_add, add_sub_cancel_left, BitVec.toNat_ofNat,
      Nat.mod_eq_of_lt (Nat.lt_trans hk31 (by decide))]
    omega

/-! ## One step -/

theorem Agrees.init (expires : Nat → BitVec 32) : Agrees (.init expires) .init := by
  refine ⟨rfl, by decide, fun _ => [], [], .outside (.inl rfl) ⟨⟨fun _ => 0, ?_, ?_⟩, rfl⟩ (by decide)⟩
  · refine ⟨rfl, rfl, fun _ _ _ => rfl, fun n _ _ => ⟨Nat.zero_le _, ?_⟩, ⟨fun v => ?_, ?_⟩,
      fun v x hx => (nomatch hx), fun x hx => (nomatch hx), .nil, fun t d hd => (nomatch hd),
      fun t _ => rfl⟩
    · simp [Agenda.init]
    · exact ⟨⟨rfl, rfl⟩, by simp⟩
    · intro v w hvw
      simp only [List.disjoint_singleton, slotHead, List.mem_singleton]
      intro he
      obtain ⟨h1, h2⟩ := Node.vec.inj he
      exact hvw (Prod.ext h1 h2).symm
  · intro m h1 h4
    exact ⟨fun hm => absurd h1 (Nat.not_le.mpr hm), fun _ => by simp [Agenda.init]⟩

theorem wp_add {e : BitVec 32} (h : Agrees s a) (he : Enabled s (.add t e)) :
    wp E (doEvent fuel (.add t e))
      (fun _ u => u.phase = s.phase ∧ Agrees u (a.after s.phase (.add t e) u.phase) ∧
        Turns s a (.add t e) u (a.after s.phase (.add t e) u.phase)) s := by
  obtain ⟨hclock, hnear, L, Q, hheld⟩ := h
  have hp := hheld.pending_iff t
  simp only [doEvent, addTimer, wp_bind, wp_get]
  cases hd : a.due t with
  | some d =>
    rw [hd] at hp
    have hne : ¬ s.pending t = false := by simp [hp]
    have hafter : ∀ p', a.after s.phase (.add t e) p' = a := fun _ => if_neg (by simp [hd])
    rw [if_neg hne, wp_bind, wp_get, if_neg hne, wp_pure, hafter]
    have hadd : ∀ u x, Event.add t e = .add u x → a.due u ≠ none := by
      intro u x he
      cases he
      simp [hd]
    refine ⟨rfl, hheld.turned hheld (.keep rfl hadd ?_ ?_) hclock hnear⟩ <;> rw [hafter]
  | none =>
    rw [hd] at hp
    have hpf : s.pending t = false := hp
    rw [if_pos hpf, wp_bind, wp_modify, wp_bind, wp_get]
    change wp E (if (s.setExpires t e).pending t = false then _ else _) _ _
    rw [if_pos (show (s.setExpires t e).pending t = false from hpf)]
    have hafter : ∀ p', a.after s.phase (.add t e) p' =
        a.put t (dueAt (a.first s.phase) e) := fun _ => if_pos hd
    simp only [hafter]
    have hh := hheld
    cases hheld with
    | outside hph ho hle =>
      obtain ⟨u, v, hadd, hu, hticks, hl, ho'⟩ := ho.add hd e
      have hfirst : a.first s.phase = a.now := by
        rcases hph with hph | hph <;> rw [hph] <;> rfl
      have hout : s.phase.inside = false := by
        rcases hph with hph | hph <;> rw [hph] <;> rfl
      rw [wp_of_ok hadd, hfirst]
      exact ⟨hu, hh.turned (.outside (hu ▸ hph) ho' hle) (.put (hu ▸ rfl) hout hd hfirst hl)
        (hticks.trans hclock) hnear⟩
    | inside _ hph hi hle =>
      obtain ⟨u, hadd, hu, hticks, hi'⟩ := hi.add hd e
      have hhandler : ∃ r, s.phase = .handler r := by
        rcases he with he | he
        · rcases hph with hph | ⟨r, hph⟩ <;> rw [he] at hph <;> cases hph
        · exact he
      obtain ⟨r, hr⟩ := hhandler
      have hfirst : a.first s.phase = a.now + 1 := by rw [hr]; rfl
      rw [wp_of_ok hadd, hfirst]
      exact ⟨hu, hh.turned (.inside _ (hu ▸ hph) hi' hle) (.queue (hu ▸ rfl) (hr ▸ rfl) hd hfirst)
        (hticks.trans hclock) hnear⟩

theorem wp_del (h : Agrees s a) :
    wp E (doEvent fuel (.del t)) (fun _ u => u.phase = s.phase ∧ Agrees u (a.drop t) ∧
      Turns s a (.del t) u (a.drop t)) s := by
  obtain ⟨hclock, hnear, L, Q, hheld⟩ := h
  have hh := hheld
  cases hheld with
  | outside hph ho hle =>
    obtain ⟨l, L', hdel, ho', hsub⟩ := ho.del (t := t)
    rw [doEvent, wp_of_ok hdel]
    exact ⟨rfl, hh.turned (.outside hph ho' hle) (.remove rfl hsub (.refl _)) hclock hnear⟩
  | inside _ hph hi hle =>
    obtain ⟨l, L', Q', hdel, hi', hsub, hsubQ⟩ := hi.del (t := t)
    rw [doEvent, wp_of_ok hdel]
    exact ⟨rfl, hh.turned (.inside _ hph hi' hle) (.remove rfl hsub hsubQ) hclock hnear⟩

/-- The lists that the next walks go through are within the fuel. -/
def Enough (E : Stop → Prop) (fuel : Nat) (s : State) (a : Agenda) : Prop :=
  ∃ L Q, Held s a L Q ∧ (Q.length < fuel ∨ E .hang) ∧
    ∀ m, 1 ≤ m → m ≤ 4 → (L (m, s.index m)).length < fuel ∨ E .hang

/-- The test of the loop and the start of an iteration. -/
theorem wp_loop (h : Agrees s a) (hp : s.phase = .loop) (hk : Enough E fuel s a) :
    wp E (doEvent fuel .go) (fun _ u => (Agrees u (a.after s.phase .go u.phase) ∧
      Turns s a .go u (a.after s.phase .go u.phase)) ∧
      (u.phase = .idle ∧ a.ticks < a.now ∨ u.phase = .serve)) s := by
  have htest := h.loop_test
  obtain ⟨hclock, hnear, -⟩ := h
  obtain ⟨L, Q, hheld, -, hk⟩ := hk
  simp only [doEvent, wp_bind, wp_get]
  rw [if_pos hp]
  have hafter : ∀ p', a.after s.phase .go p' = a := by
    intro p'
    rw [hp]
    rfl
  simp only [hafter]
  have hh := hheld
  cases hheld with
  | inside _ hph => rcases hph with hph | ⟨r, hph⟩ <;> rw [hp] at hph <;> cases hph
  | outside hph ho hle =>
    by_cases hlt : (s.ticks - s.timerJiffies).slt 0 = true
    · unfold doLoop
      simp only [wp_bind, wp_get]
      rw [if_pos hlt, wp_modify]
      have hkeep : Turn a L [] .go s.phase .idle L [] := by
        refine .keep (hp ▸ rfl) (fun _ _ he => Event.noConfusion he) ?_ ?_ <;> rw [hafter]
      exact ⟨hh.turned (.outside (.inl rfl) (ho.setPhase _) hle) hkeep hclock hnear,
        .inl ⟨rfl, htest.mp hlt⟩⟩
    · refine wp_mono (wp_begin ho hlt fun c hw m h1 h4 => ?_) ?_
      · rw [← hw.index m h1 h4]
        exact hk m h1 h4
      · rintro _ u ⟨hu, hticks, L', hi, hcasc⟩
        have hnow := Nat.le_of_not_lt (mt htest.mpr hlt)
        have hturn : Turn a L [] .go s.phase u.phase L' [] := by
          rw [hp, hu]
          exact .start hcasc
        exact ⟨hh.turned (.inside [] (.inl hu) hi hnow) hturn (hticks.trans hclock) hnear, .inr hu⟩

theorem wp_serve (h : Agrees s a) (hp : s.phase = .serve) (hk : Enough E fuel s a) :
    wp E (doEvent fuel .go) (fun _ u => (Agrees u (a.after s.phase .go u.phase) ∧
      Turns s a .go u (a.after s.phase .go u.phase)) ∧
      ((∃ t, u.phase = .handler t ∧ a.due t = some a.now ∧ {t | a.due t = some a.now}.Finite) ∨
        u.phase = .loop ∧ a.now ≤ a.ticks ∧ ∀ t, a.due t ≠ some a.now)) s := by
  obtain ⟨hclock, hnear, -⟩ := h
  obtain ⟨L, Q, hheld, hk, -⟩ := hk
  simp only [doEvent, wp_bind, wp_get]
  rw [if_neg (by simp [hp]), hp]
  have hh := hheld
  cases hheld with
  | outside hph => rcases hph with hph | hph <;> rw [hp] at hph <;> cases hph
  | inside _ _ hi hle =>
    refine wp_mono (wp_doServe hi hk) ?_
    rintro _ u ⟨hticks, ⟨t, xs, hL, hu, hi'⟩ | ⟨hL, hu, L', ho, hsettled⟩⟩
    · have hturn : Turn a L Q .go s.phase u.phase (Function.update L (0, a.now % 256) xs) Q := by
        rw [hp, hu]
        exact .call hL
      rw [hu]
      exact ⟨hh.turned (.inside Q (.inr ⟨t, hu⟩) hi' hle) hturn (hticks.trans hclock) hnear,
        .inl ⟨t, rfl, hi.head_due hL, hi.due_finite⟩⟩
    · have hturn : Turn a L Q .go s.phase u.phase L' [] := by
        rw [hp, hu]
        exact .finish hsettled
      rw [hu]
      refine ⟨hh.turned (.outside (.inr hu) ho (Nat.succ_le_succ hle)) hturn (hticks.trans hclock) ?_,
        .inr ⟨rfl, hle, fun t hd => ?_⟩⟩
      · exact Nat.lt_of_lt_of_le hnear (Nat.add_le_add_right (Nat.le_succ _) _)
      · have hm := hi.mem_of_due hd
        rw [hL] at hm
        cases hm

/-- Every event keeps the agenda. -/
theorem wp_event {e : Event} (h : Agrees s a) (he : Enabled s e) (hk : Enough E fuel s a) :
    wp E (doEvent fuel e) (fun _ u => Agrees u (a.after s.phase e u.phase) ∧
      Turns s a e u (a.after s.phase e u.phase)) s := by
  cases e with
  | add t x => exact wp_mono (wp_add h he) fun _ _ hu => hu.2
  | del t => exact wp_mono (wp_del h) fun _ _ hu => hu.2
  | tick =>
    obtain ⟨hidle, hguard⟩ := he
    obtain ⟨hclock, hnear, L, Q, hheld⟩ := h
    have hle := hheld.le
    have hjif := hheld.jiffies
    refine hheld.turned ?_ (.keep rfl (fun _ _ he => nomatch he) rfl rfl) ?_ ?_
    rotate_left
    · change s.ticks + 1 = _
      rw [hclock, Agenda.after, BitVec.ofNat_add]
      rfl
    · change a.ticks + 1 < a.now + 2 ^ 31
      refine Nat.lt_of_le_of_ne hnear fun heq => hguard ?_
      have hk : a.ticks = a.now + (2 ^ 31 - 1) := by omega
      rw [hclock, hjif, hk, BitVec.ofNat_add, add_sub_cancel_left]
      rfl
    · cases hheld with
      | outside hph ho _ =>
        obtain ⟨⟨c, hw, hb⟩, hr⟩ := ho
        refine .outside hph ⟨⟨c, ?_, hb⟩, hr⟩ (Nat.le_succ_of_le hle)
        exact ⟨hw.jiffies, hw.index_zero, hw.index, hw.fits, hw.rings, hw.placed, hw.away,
          hw.away_nodup, hw.linked, hw.cleared⟩
      | inside _ hph => rcases hph with hph | ⟨r, hph⟩ <;> rw [hidle] at hph <;> cases hph
  | bh =>
    obtain ⟨hclock, hnear, L, Q, hheld⟩ := h
    have hh := hheld
    cases hheld with
    | outside _ ho hle =>
      have hidle : s.phase = .idle := he
      exact hh.turned (.outside (.inr rfl) (ho.setPhase _) hle)
        (.keep (hidle ▸ rfl) (fun _ _ he => nomatch he) rfl rfl) hclock hnear
    | inside _ hph =>
      have hidle : s.phase = .idle := he
      rcases hph with hph | ⟨r, hph⟩ <;> rw [hidle] at hph <;> cases hph
  | go =>
    rcases he with hp | hp
    · exact wp_mono (wp_loop h hp hk) fun _ _ hu => hu.1
    · exact wp_mono (wp_serve h hp hk) fun _ _ hu => hu.1
  | ret =>
    obtain ⟨r, hr⟩ := he
    obtain ⟨hclock, hnear, L, Q, hheld⟩ := h
    have hh := hheld
    cases hheld with
    | outside hph => rcases hph with hph | hph <;> rw [hr] at hph <;> cases hph
    | inside _ _ hi hle =>
      exact hh.turned (.inside Q (.inl rfl) (hi.setPhase _) hle)
        (.keep (hr ▸ rfl) (fun _ _ he => nomatch he) rfl rfl) hclock hnear

/-! ## Runs -/

theorem Agrees.enough (h : Agrees s a) : Enough (fun _ => True) fuel s a := by
  obtain ⟨-, -, L, Q, hheld⟩ := h
  exact ⟨L, Q, hheld, .inr trivial, fun _ _ _ => .inr trivial⟩

/-- Some fuel is enough for the next walks. -/
theorem Agrees.exists_fuel (h : Agrees s a) : ∃ fuel, Enough (fun _ => False) fuel s a := by
  obtain ⟨-, -, L, Q, hheld⟩ := h
  let len := fun m => (L (m, s.index m)).length
  refine ⟨Q.length + (len 1 + len 2 + len 3 + len 4) + 1, L, Q, hheld, .inl (by omega), ?_⟩
  intro m h1 h4
  refine .inl ?_
  change len m < _
  obtain rfl | rfl | rfl | rfl : m = 1 ∨ m = 2 ∨ m = 3 ∨ m = 4 := by omega
  all_goals omega

theorem Watched.agrees {x y : State × Agenda} {e : Event} (h : Agrees x.1 x.2)
    (hw : Watched x e y) : Agrees y.1 y.2 := by
  obtain ⟨⟨he, fuel, hrun⟩, hy⟩ := hw
  rw [hy]
  exact ((wp_of_ok hrun).mp (wp_event h he h.enough)).1

theorem Watched.run_agrees {x y : State × Agenda} {es : List Event} (h : Run Watched x es y)
    (hx : Agrees x.1 x.2) : Agrees y.1 y.2 :=
  h.invariant (I := fun x => Agrees x.1 x.2) (fun _ _ _ hi hw => hw.agrees hi) hx

/-! ## Progress -/

/-- The cascade is to come. -/
def Phase.early : Phase → Nat
  | .loop => 1
  | _ => 0

/-- A handler is to return. -/
def Phase.called : Phase → Nat
  | .handler _ => 1
  | _ => 0

/-- What `run_timer_list` has left to do: iterations, the cascade, handlers to call, and the
return of the current one. -/
noncomputable def rank (x : State × Agenda) : Nat ×ₗ Nat ×ₗ Nat ×ₗ Nat :=
  toLex (x.2.ticks + 1 - x.2.now, toLex (x.1.phase.early,
    toLex ({t | x.2.due t = some x.2.now}.ncard, x.1.phase.called)))

variable {x y : State × Agenda} {e : Event}

/-- A step of `run_timer_list` that does not leave it. -/
theorem Watched.rank_go (h : Agrees x.1 x.2) (hw : Watched x .go y) (hy : y.1.phase ≠ .idle) :
    rank y < rank x := by
  obtain ⟨⟨he, fuel, hrun⟩, hafter⟩ := hw
  rcases he with hp | hp
  · obtain ⟨-, ⟨hidle, -⟩ | hserve⟩ := (wp_of_ok hrun).mp (wp_loop h hp h.enough)
    · exact absurd hidle hy
    have hsame : y.2 = x.2 := by
      rw [hafter, hp]
      rfl
    unfold rank
    rw [hsame, hp, hserve]
    simp only [Prod.Lex.toLex_lt_toLex]
    exact .inr ⟨trivial, .inl (by decide)⟩
  · obtain ⟨-, ⟨t, hph, hd, hfin⟩ | ⟨hph, hle, -⟩⟩ :=
      (wp_of_ok hrun).mp (wp_serve h hp h.enough)
    · have hdrop : y.2 = x.2.drop t := by
        rw [hafter, hp, hph]
        rfl
      have hcard : {u | (x.2.drop t).due u = some x.2.now}.ncard <
          {u | x.2.due u = some x.2.now}.ncard := by
        refine Set.ncard_lt_ncard ⟨fun u hu => ?_, fun hsub => ?_⟩ hfin
        · change Function.update x.2.due t none u = some x.2.now at hu
          have hut : u ≠ t := by
            rintro rfl
            rw [Function.update_self] at hu
            cases hu
          rwa [Function.update_of_ne hut] at hu
        · have ht : Function.update x.2.due t none t = some x.2.now := hsub hd
          rw [Function.update_self] at ht
          cases ht
      unfold rank
      rw [hdrop, hp, hph]
      simp only [Prod.Lex.toLex_lt_toLex]
      exact .inr ⟨rfl, .inr ⟨rfl, .inl hcard⟩⟩
    · have hnext : y.2 = { x.2 with now := x.2.now + 1 } := by
        rw [hafter, hp, hph]
        rfl
      unfold rank
      rw [hnext]
      simp only [Prod.Lex.toLex_lt_toLex]
      exact .inl (by omega)

theorem Watched.rank_ret (hw : Watched x .ret y) : rank y < rank x := by
  obtain ⟨⟨⟨t, ht⟩, fuel, hrun⟩, hafter⟩ := hw
  have hy : y.1.phase = .serve := by
    rw [show y.1 = x.1.setPhase .serve from (Prod.mk.inj (Except.ok.inj hrun)).2.symm]
    rfl
  have hsame : y.2 = x.2 := hafter
  unfold rank
  rw [hsame, ht, hy]
  simp only [Prod.Lex.toLex_lt_toLex]
  exact .inr ⟨trivial, .inr ⟨rfl, .inr ⟨trivial, Nat.zero_lt_one⟩⟩⟩

/-- What a handler adds does not run in the current iteration. -/
theorem Watched.rank_add {e : BitVec 32} (h : Agrees x.1 x.2) (hw : Watched x (.add t e) y)
    (hx : x.1.phase ≠ .idle) : rank y = rank x := by
  obtain ⟨⟨he, fuel, hrun⟩, hafter⟩ := hw
  obtain ⟨hph, -⟩ := (wp_of_ok hrun).mp (wp_add (E := fun _ => True) h he)
  obtain ⟨r, hr⟩ := he.resolve_left hx
  have hfirst : x.2.first x.1.phase = x.2.now + 1 := by
    rw [hr]
    rfl
  by_cases hd : x.2.due t = none
  · have hput : y.2 = x.2.put t (dueAt (x.2.now + 1) e) := by
      rw [hafter, ← hfirst]
      exact if_pos hd
    have hset : {u | y.2.due u = some y.2.now} = {u | x.2.due u = some x.2.now} := by
      rw [hput]
      refine Set.ext fun u => ?_
      change Function.update x.2.due t _ u = some x.2.now ↔ x.2.due u = some x.2.now
      by_cases hut : u = t
      · subst hut
        rw [Function.update_self, hd]
        have hle := le_dueAt (x.2.now + 1) e
        refine iff_of_false (fun heq => ?_) (fun heq => nomatch heq)
        have := Option.some.inj heq
        omega
      · rw [Function.update_of_ne hut]
    unfold rank
    rw [hset, hph, hput]
    rfl
  · have hsame : y.2 = x.2 := hafter.trans (if_neg hd)
    unfold rank
    rw [hsame, hph]

theorem Watched.rank_del (h : Agrees x.1 x.2) (hw : Watched x (.del t) y) (hx : x.1.phase ≠ .idle) :
    rank y = rank x ∨ rank y < rank x := by
  obtain ⟨⟨he, fuel, hrun⟩, hafter⟩ := hw
  obtain ⟨hph, -⟩ := (wp_of_ok hrun).mp (wp_del (E := fun _ => True) h)
  obtain ⟨r, hr⟩ := he.resolve_left hx
  have hdrop : y.2 = x.2.drop t := hafter
  have hfin : {u | x.2.due u = some x.2.now}.Finite := by
    obtain ⟨-, -, L, Q, hheld⟩ := h
    cases hheld with
    | outside hp => rcases hp with hp | hp <;> rw [hr] at hp <;> cases hp
    | inside _ _ hi _ => exact hi.due_finite
  have hsub : {u | (x.2.drop t).due u = some x.2.now} ⊆ {u | x.2.due u = some x.2.now} := by
    intro u hu
    change Function.update x.2.due t none u = some x.2.now at hu
    have hut : u ≠ t := by
      rintro rfl
      rw [Function.update_self] at hu
      cases hu
    rwa [Function.update_of_ne hut] at hu
  have hcard := Set.ncard_le_ncard hsub hfin
  unfold rank
  rw [hdrop, hph]
  rcases Nat.eq_or_lt_of_le hcard with heq | hlt
  · refine .inl ?_
    change toLex (x.2.ticks + 1 - x.2.now, toLex (x.1.phase.early,
      toLex ({u | (x.2.drop t).due u = some x.2.now}.ncard, x.1.phase.called))) = _
    rw [heq]
  · refine .inr ?_
    simp only [Prod.Lex.toLex_lt_toLex]
    exact .inr ⟨rfl, .inr ⟨trivial, .inl hlt⟩⟩

/-! ## On time -/

/-- What can be said of the wheel and its agenda after a run. -/
structure OnTime (s : State) (a : Agenda) : Prop where
  jiffies : s.timerJiffies = BitVec.ofNat 32 a.now
  clock : s.ticks = BitVec.ofNat 32 a.ticks
  /-- Exactly the timers of the agenda are pending. -/
  pending : ∀ t, s.pending t = (a.due t).isSome
  /-- No timer is overdue. -/
  future : ∀ t d, a.due t = some d → a.now ≤ d
  /-- A pending timer is in exactly one list, once. -/
  place : ∃ (L : Nat × Nat → List Node) (Q : List Node), RingLists s.links slotHead L ∧
    (s.running = true → RingList s.links .queued Q) ∧ (s.running = false → Q = []) ∧
    (∀ x, (∃ v, x ∈ L v) ∨ x ∈ Q ↔ ∃ t, x = .timer t ∧ s.pending t = true) ∧
    ∀ v, List.Disjoint Q (L v)
  /-- A handler is only called when its timer is due. -/
  called : ∀ s' t, Step s .go s' → s'.phase = .handler t → a.due t = some a.now
  /-- An iteration does not end while a timer is due. -/
  served : ∀ s', Step s .go s' → s.phase = .serve → s'.phase = .loop → ∀ t, a.due t ≠ some a.now
  /-- `run_timer_list` does not return before it has caught up. -/
  caught : ∀ s', Step s .go s' → s'.phase = .idle → a.ticks < a.now
  /-- Every event can be done. -/
  live : ∀ e, Enabled s e → ∃ s', Step s e s'
  /-- Only a handler that does not return keeps `run_timer_list` from returning. -/
  ends : ∀ (run : Nat → State × Agenda) (es : Nat → Event), run 0 = (s, a) →
    (∀ n, Watched (run n) (es n) (run (n + 1))) → (∀ n, (run n).1.phase ≠ .idle) →
      ∃ n, ∀ m, n ≤ m → es m ≠ .go ∧ es m ≠ .ret

/-- The lists and the timers that are due. -/
theorem Wheel.mem_iff {now : Nat} {c : Nat → Nat} {due : Nat → Option Nat} {R : List Node}
    (h : Wheel s now c due L R) (x : Node) :
    (∃ v, x ∈ L v) ∨ x ∈ R ↔ ∃ t, x = .timer t ∧ (due t).isSome = true := by
  constructor
  · rintro (⟨v, hv⟩ | hx)
    · obtain ⟨t, d, rfl, hd, -⟩ := h.placed v x hv
      exact ⟨t, rfl, by rw [hd]; rfl⟩
    · obtain ⟨-, t, d, rfl, hd⟩ := h.away x hx
      exact ⟨t, rfl, by rw [hd]; rfl⟩
  · rintro ⟨t, rfl, ht⟩
    obtain ⟨d, hd⟩ := Option.isSome_iff_exists.mp ht
    exact h.linked t d hd

theorem Agrees.place (h : Agrees s a) : ∃ (L : Nat × Nat → List Node) (Q : List Node),
    RingLists s.links slotHead L ∧ (s.running = true → RingList s.links .queued Q) ∧
    (s.running = false → Q = []) ∧
    (∀ x, (∃ v, x ∈ L v) ∨ x ∈ Q ↔ ∃ t, x = .timer t ∧ s.pending t = true) ∧
    ∀ v, List.Disjoint Q (L v) := by
  obtain ⟨-, -, L, Q, hheld⟩ := h
  have hp := hheld.pending_iff
  cases hheld with
  | outside _ ho _ =>
    obtain ⟨⟨c, hw, -⟩, hr⟩ := ho
    refine ⟨L, [], hw.rings, fun hr' => ?_, fun _ => rfl, fun x => ?_, fun v => by simp⟩
    · rw [hr] at hr'
      cases hr'
    · simp only [hp]
      exact hw.mem_iff x
  | inside _ _ hi _ =>
    have hbeside := hi.beside
    obtain ⟨⟨c, hw, -⟩, hr, hq, -⟩ := hi
    refine ⟨L, Q, hw.rings, fun _ => hq, fun hr' => ?_, fun x => ?_, fun v x hx hv => ?_⟩
    · rw [hr] at hr'
      cases hr'
    · simp only [hp]
      exact hw.mem_iff x
    · exact hbeside v (List.mem_cons_of_mem _ hx) (List.mem_cons_of_mem _ hv)

theorem Agrees.ends {run : Nat → State × Agenda} {es : Nat → Event}
    (h : Agrees (run 0).1 (run 0).2) (hrun : ∀ n, Watched (run n) (es n) (run (n + 1)))
    (hbusy : ∀ n, (run n).1.phase ≠ .idle) : ∃ n, ∀ m, n ≤ m → es m ≠ .go ∧ es m ≠ .ret := by
  have hall : ∀ n, Agrees (run n).1 (run n).2 := by
    intro n
    induction n with
    | zero => exact h
    | succ n ih => exact (hrun n).agrees ih
  have hlt : ∀ n, es n = .go ∨ es n = .ret → rank (run (n + 1)) < rank (run n) := by
    intro n hn
    have hw := hrun n
    rcases hn with hn | hn <;> rw [hn] at hw
    · exact hw.rank_go (hall n) (hbusy (n + 1))
    · exact hw.rank_ret
  have hle : ∀ n, rank (run (n + 1)) = rank (run n) ∨ rank (run (n + 1)) < rank (run n) := by
    intro n
    have hw := hrun n
    cases he : es n with
    | go => exact .inr (hlt n (.inl he))
    | ret => exact .inr (hlt n (.inr he))
    | add t e =>
      rw [he] at hw
      exact .inl (hw.rank_add (hall n) (hbusy n))
    | del t =>
      rw [he] at hw
      exact hw.rank_del (hall n) (hbusy n)
    | tick =>
      rw [he] at hw
      exact absurd hw.1.1.1 (hbusy n)
    | bh =>
      rw [he] at hw
      exact absurd hw.1.1 (hbusy n)
  obtain ⟨n, hn⟩ := eventually_quiet wellFounded_lt (fun n => rank (run n)) _ hlt hle
  exact ⟨n, fun m hm => ⟨fun he => hn m hm (.inl he), fun he => hn m hm (.inr he)⟩⟩

theorem Agrees.onTime (h : Agrees s a) : OnTime s a := by
  obtain ⟨L, Q, hheld⟩ := h.held
  refine ⟨hheld.jiffies, h.clock, hheld.pending_iff, fun t d hd => hheld.due_le hd, h.place,
    ?_, ?_, ?_, ?_, ?_⟩
  · rintro s' t ⟨he, fuel, hrun⟩ ht
    rcases he with hp | hp
    · obtain ⟨-, ⟨hph, -⟩ | hph⟩ := (wp_of_ok hrun).mp (wp_loop h hp h.enough)
      all_goals
        rw [ht] at hph
        cases hph
    · obtain ⟨-, ⟨u, hph, hd, -⟩ | ⟨hph, -⟩⟩ := (wp_of_ok hrun).mp (wp_serve h hp h.enough)
      · rw [ht] at hph
        cases hph
        exact hd
      · rw [ht] at hph
        cases hph
  · rintro s' ⟨he, fuel, hrun⟩ hp hl
    obtain ⟨-, ⟨u, hph, -⟩ | ⟨-, -, hnone⟩⟩ := (wp_of_ok hrun).mp (wp_serve h hp h.enough)
    · rw [hl] at hph
      cases hph
    · exact hnone
  · rintro s' ⟨he, fuel, hrun⟩ hidle
    rcases he with hp | hp
    · obtain ⟨-, ⟨-, hlt⟩ | hph⟩ := (wp_of_ok hrun).mp (wp_loop h hp h.enough)
      · exact hlt
      · rw [hidle] at hph
        cases hph
    · obtain ⟨-, ⟨u, hph, -⟩ | ⟨hph, -⟩⟩ := (wp_of_ok hrun).mp (wp_serve h hp h.enough)
      all_goals
        rw [hidle] at hph
        cases hph
  · intro e he
    obtain ⟨fuel, hk⟩ := h.exists_fuel
    obtain ⟨_, s', hrun, -⟩ := ok_of_wp (wp_event h he hk)
    exact ⟨s', he, fuel, hrun⟩
  · intro run es h0 hrun hbusy
    have hstart : Agrees (run 0).1 (run 0).2 := by
      rw [h0]
      exact h
    exact hstart.ends hrun hbusy

/-- Every timer that is added is handled when it is due, not before, not after it was deleted, and
once; no timer gets lost. -/
theorem runs_on_time {expires : Nat → BitVec 32} {es : List Event}
    (h : Run Watched (.init expires, .init) es (s, a)) : OnTime s a :=
  (Watched.run_agrees h (.init expires)).onTime

/-! ## A run with a cascade -/

theorem Agrees.adds (h : Agrees s a) {e : BitVec 32} (he : Enabled s (.add t e)) :
    ∃ u, Watched (s, a) (.add t e) (u, a.after s.phase (.add t e) u.phase) ∧ u.phase = s.phase := by
  have hadd := @wp_add s a t (fun _ => False) 0 e h he
  obtain ⟨_, u, hrun, hph, -⟩ := ok_of_wp hadd
  exact ⟨u, ⟨⟨he, 0, hrun⟩, rfl⟩, hph⟩

theorem ticks_run {k : Nat} (hp : s.phase = .idle)
    (hg : ∀ i, i < k → s.ticks + BitVec.ofNat 32 i - s.timerJiffies ≠ 0x7fffffff) :
    Run Watched (s, a) (List.replicate k .tick)
      ({ s with ticks := s.ticks + BitVec.ofNat 32 k }, { a with ticks := a.ticks + k }) := by
  induction k with
  | zero =>
    have h0 : s.ticks + BitVec.ofNat 32 0 = s.ticks := BitVec.add_zero ..
    rw [h0]
    exact .nil _
  | succ k ih =>
    have hsum : s.ticks + BitVec.ofNat 32 (k + 1) = s.ticks + BitVec.ofNat 32 k + 1 := by
      rw [BitVec.ofNat_add, ← BitVec.add_assoc]
      rfl
    rw [List.replicate_succ', hsum]
    exact (ih fun i hi => hg i (by omega)).append
      (.single ⟨⟨⟨hp, hg k (by omega)⟩, 0, rfl⟩, rfl⟩)

theorem watched_bh (hp : s.phase = .idle) : Watched (s, a) .bh (s.setPhase .loop, a) :=
  ⟨⟨hp, 0, rfl⟩, rfl⟩

theorem watched_ret (hp : s.phase = .handler t) : Watched (s, a) .ret (s.setPhase .serve, a) :=
  ⟨⟨⟨t, hp⟩, 0, rfl⟩, rfl⟩

theorem Agrees.starts (h : Agrees s a) (hp : s.phase = .loop) (hle : a.now ≤ a.ticks) :
    ∃ u, Watched (s, a) .go (u, a) ∧ u.phase = .serve := by
  obtain ⟨fuel, hk⟩ := h.exists_fuel
  obtain ⟨_, u, hrun, -, ⟨-, hlt⟩ | hserve⟩ := ok_of_wp (wp_loop h hp hk)
  · exact absurd hlt (Nat.not_lt.mpr hle)
  · refine ⟨u, ⟨⟨.inl hp, fuel, hrun⟩, ?_⟩, hserve⟩
    change a = a.after s.phase .go u.phase
    rw [hp]
    rfl

/-- The only timer that is due is handled. -/
theorem Agrees.calls (h : Agrees s a) (hp : s.phase = .serve) (hd : a.due t = some a.now)
    (honly : ∀ v, a.due v = some a.now → v = t) :
    ∃ u, Watched (s, a) .go (u, a.drop t) ∧ u.phase = .handler t := by
  obtain ⟨fuel, hk⟩ := h.exists_fuel
  obtain ⟨_, u, hrun, -, ⟨v, hph, hv, -⟩ | ⟨-, -, hnone⟩⟩ := ok_of_wp (wp_serve h hp hk)
  · obtain rfl := honly v hv
    refine ⟨u, ⟨⟨.inr hp, fuel, hrun⟩, ?_⟩, hph⟩
    change a.drop v = a.after s.phase .go u.phase
    rw [hp, hph]
    rfl
  · exact absurd hd (hnone t)

/-- No timer is due. -/
theorem Agrees.passes (h : Agrees s a) (hp : s.phase = .serve) (hnone : ∀ v, a.due v ≠ some a.now) :
    ∃ u, Watched (s, a) .go (u, { a with now := a.now + 1 }) ∧ u.phase = .loop := by
  obtain ⟨fuel, hk⟩ := h.exists_fuel
  obtain ⟨_, u, hrun, -, ⟨v, -, hv, -⟩ | ⟨hph, -, -⟩⟩ := ok_of_wp (wp_serve h hp hk)
  · exact absurd hv (hnone v)
  · refine ⟨u, ⟨⟨.inr hp, fuel, hrun⟩, ?_⟩, hph⟩
    change { a with now := a.now + 1 } = a.after s.phase .go u.phase
    rw [hp, hph]
    rfl

/-- Iterations in which no timer is due. -/
theorem Agrees.iterations {k : Nat} (h : Agrees s a) (hp : s.phase = .loop)
    (hle : a.now + k ≤ a.ticks + 1) (hnone : ∀ i, i < k → ∀ v, a.due v ≠ some (a.now + i)) :
    ∃ es u, Run Watched (s, a) es (u, { a with now := a.now + k }) ∧ u.phase = .loop := by
  induction k with
  | zero => exact ⟨[], s, .nil _, hp⟩
  | succ k ih =>
    obtain ⟨es, u, hrun, hu⟩ := ih (by omega) fun i hi => hnone i (by omega)
    have hagree := Watched.run_agrees hrun h
    obtain ⟨v, hstart, hv⟩ := hagree.starts hu (Nat.le_of_succ_le_succ hle)
    obtain ⟨w, hpass, hw⟩ := (hstart.agrees hagree).passes hv (hnone k (by omega))
    exact ⟨_, w, hrun.append (.cons hstart (.single hpass)), hw⟩

/-- Only the timer 7 is in the agenda. -/
theorem due_seven {v d : Nat} (h : Function.update (fun _ => none) 7 (some 300) v = some d) :
    v = 7 ∧ d = 300 := by
  rw [Function.update_apply] at h
  split at h
  · exact ⟨‹_›, (Option.some.inj h).symm⟩
  · cases h

/-- Timer 7 is due at tick 300 and waits in the second wheel until the cascade at tick 256. Its handler
adds timer 8. -/
theorem runs_on_time_cascade : ∃ s a, a.now = 301 ∧ a.due 7 = none ∧ a.due 8 = some 600 ∧
    OnTime s a := by
  let due : Nat → Option Nat := Function.update (fun _ => none) 7 (some 300)
  have h₀ := Agrees.init fun _ => 0
  obtain ⟨s₁, w₁, p₁⟩ := h₀.adds (t := 7) (e := 300) (.inl rfl)
  have h₁ : Agrees s₁ ⟨0, 0, due⟩ := w₁.agrees h₀
  have r₂ := ticks_run (a := ⟨0, 0, due⟩) (k := 300) p₁ fun i hi heq => by
    rw [h₁.clock, h₁.onTime.jiffies] at heq
    have hnat := congrArg BitVec.toNat heq
    simp at hnat
    omega
  have h₂ := Watched.run_agrees r₂ h₁
  have w₃ := watched_bh (s := { s₁ with ticks := s₁.ticks + 300#32 }) (a := ⟨0, 300, due⟩) p₁
  have h₃ := w₃.agrees h₂
  obtain ⟨es, s₄, r₄, p₄⟩ := h₃.iterations (k := 300) rfl (Nat.le_succ 300) fun i hi v hv => by
    have hd := (due_seven hv).2
    simp only [Nat.zero_add] at hd
    omega
  have h₄ : Agrees s₄ ⟨300, 300, due⟩ := Watched.run_agrees r₄ h₃
  obtain ⟨s₅, w₅, p₅⟩ := h₄.starts p₄ (Nat.le_refl 300)
  have h₅ := w₅.agrees h₄
  obtain ⟨s₆, w₆, p₆⟩ := h₅.calls (t := 7) p₅ rfl fun v hv => (due_seven hv).1
  have h₆ := w₆.agrees h₅
  obtain ⟨s₇, w₇, p₇⟩ := h₆.adds (t := 8) (e := 600) (.inr ⟨7, p₆⟩)
  let late : Nat → Option Nat := Function.update (Function.update due 7 none) 8 (some 600)
  have hlater : dueAt 301 600 = 600 := by decide
  have hafter : (Agenda.drop ⟨300, 300, due⟩ 7).after (.handler 7) (.add 8 600) s₇.phase =
      ⟨300, 300, late⟩ := by
    change Agenda.put _ 8 (dueAt 301 600) = _
    rw [hlater]
    rfl
  rw [p₆, hafter] at w₇
  have h₇ := w₇.agrees h₆
  have w₈ := watched_ret (a := ⟨300, 300, late⟩) (p₇.trans p₆)
  have h₈ := w₈.agrees h₇
  obtain ⟨s₉, w₉, -⟩ := h₈.passes rfl fun v hv => by
    have hlate : late v = some 300 := hv
    simp only [late, due, Function.update_apply] at hlate
    split_ifs at hlate
    cases hlate
  have hlast : Run Watched (s₄, ⟨300, 300, due⟩) _ (s₉, ⟨301, 300, late⟩) :=
    .cons w₅ <| .cons w₆ <| .cons w₇ <| .cons w₈ <| .single w₉
  have hrun : Run Watched (s₁, ⟨0, 0, due⟩) _ (s₉, ⟨301, 300, late⟩) :=
    r₂.append <| .cons w₃ <| r₄.append hlast
  exact ⟨s₉, ⟨301, 300, late⟩, rfl, rfl, rfl, runs_on_time (.cons w₁ hrun)⟩

end Frog.Timer
