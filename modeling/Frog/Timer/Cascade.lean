import Frog.Timer.Sorted

/-!
# The cascade

A vector is cascaded when the count of iterations reaches a multiple of the ticks that one of its
slots stands for. What stands in the slot then is due within that many ticks and goes to a lower
vector; the other slots of the vector are due later.
-/

namespace Frog.Timer

set_option autoImplicit false
open Prog

variable {s : State} {now n : Nat} {c : Nat → Nat} {due : Nat → Option Nat}
  {L : Nat × Nat → List Node} {t : Nat} {v : Nat × Nat} {E : Stop → Prop}

theorem Wheel.del_calm {R xs ys : List Node} (h : Wheel s now c due L R)
    (hL : L v = xs ++ .timer t :: ys) :
    Calm s (s.setLinks (s.links.del .null (.timer t))) := by
  have hr := h.rings.ring v
  rw [hL] at hr
  have hprev : Node.queued ≠ s.links.prev (.timer t) := by
    have hm := hr.prev_of_append
    refine (h.node_ne_queued (v := v) ?_).symm
    rw [hL]
    simp only [List.mem_cons, List.mem_append] at hm ⊢
    tauto
  have hnext : Node.queued ≠ s.links.next (.timer t) := by
    have hm := hr.next_of_append
    refine (h.node_ne_queued (v := v) ?_).symm
    rw [hL]
    simp only [List.mem_cons, List.mem_append] at hm ⊢
    tauto
  refine ⟨rfl, rfl, rfl, rfl, ?_, ?_⟩
  · refine Eq.trans ?_ (Links.unlink_next_of_ne hprev)
    simp [State.setLinks, Links.del]
  · refine Eq.trans ?_ (Links.unlink_prev_of_ne hnext)
    simp [State.setLinks, Links.del]

theorem Wheel.del {R xs ys : List Node} (h : Wheel s now c due L R)
    (hL : L v = xs ++ .timer t :: ys) :
    Wheel (s.setLinks (s.links.del .null (.timer t))) now c due (Function.update L v (xs ++ ys))
      (.timer t :: R) :=
  h.take hL fun x hx => by simp [Links.del, hx]

/-- What the cascaded slot holds is due before the next slot's turn. -/
theorem Wheel.cascaded_due {d : Nat} (h : Wheel s now c due L []) (h1 : 1 ≤ n) (h4 : n ≤ 4)
    (hnow : now = c n * 2 ^ shift n) (hp : Placed now c d n (c n % 64)) :
    now ≤ d ∧ d < now + 2 ^ shift n := by
  refine ⟨hp.le h.fits, ?_⟩
  generalize hi : c n % 64 = i at hp
  cases hp with
  | near => omega
  | far _ _ _ hlo hhi =>
    have hq : d / 2 ^ shift n = c n := by omega
    have hpos : 0 < 2 ^ shift n := Nat.two_pow_pos _
    rw [hnow, ← hq]
    exact Nat.lt_div_mul_add hpos

/-- The timers of the slot `v` go one after another to the ends of lower slots. -/
inductive Spread (now : Nat) (due : Nat → Option Nat) (v : Nat × Nat) :
    (Nat × Nat → List Node) → (Nat × Nat → List Node) → Prop
  | done {L : Nat × Nat → List Node} : Spread now due v L L
  | move {L L' : Nat × Nat → List Node} {t d : Nat} {xs : List Node} {w : Nat × Nat} :
    L v = .timer t :: xs → due t = some d → now ≤ d → d < now + 2 ^ shift v.1 →
    Level now d w.1 → Spread now due v (behind (Function.update L v xs) t w) L' →
    Spread now due v L L'

/-- The walk empties the slot and leaves the higher vectors alone. -/
theorem wp_cascadeWalk {k : Nat} (h1 : 1 ≤ n) (h4 : n ≤ 4) (hnow : now = c n * 2 ^ shift n)
    (h : Wheel s now c due L []) (hr : s.running = false)
    (hk : (L (n, c n % 64)).length < k ∨ E .hang) :
    wp E (cascadeWalk (slotHead (n, c n % 64)) k (s.links.next (slotHead (n, c n % 64))))
      (fun _ u => ∃ L', Wheel u now c due L' [] ∧ L' (n, c n % 64) = [] ∧ Calm s u ∧
        (∀ m i, n < m → L' (m, i) = L (m, i)) ∧ Spread now due (n, c n % 64) L L') s := by
  induction k generalizing s L with
  | zero => exact hk.resolve_left (Nat.not_lt_zero _)
  | succ k ih =>
    let v : Nat × Nat := (n, c n % 64)
    change wp _ (cascadeWalk (slotHead v) (k + 1) (s.links.next (slotHead v))) _ s
    have hring := h.rings.ring v
    cases hlist : L v with
    | nil =>
      rw [hlist] at hring
      rw [hring.path.1, cascadeWalk, if_pos rfl]
      exact ⟨L, h, hlist, .refl s, fun _ _ _ => rfl, .done⟩
    | cons x xs =>
      obtain ⟨t, d, rfl, hd, hp, he⟩ := h.placed v x (by simp [hlist])
      rw [hlist] at hring
      have hne : Node.timer t ≠ slotHead v := Node.noConfusion
      obtain ⟨hlo, hhi⟩ := h.cascaded_due h1 h4 hnow hp
      have hexp := he h1
      have hbig : 2 ^ shift n ≤ 2 ^ 26 :=
        Nat.pow_le_pow_right (by decide) (by unfold shift; omega)
      have hdue : dueAt now (s.expires t) = d := by
        rw [hexp]
        exact dueAt_ofNat hlo (by omega)
      rw [hring.path.1, cascadeWalk, if_neg hne]
      simp only [wp_bind, wp_listEntry, wp_nextOf, wp_setLinks]
      -- off the list and into a lower vector
      have hdel := @Wheel.del _ _ _ _ _ _ _ _ [] _ h hlist
      obtain ⟨w, hw, hadd, hput⟩ := hdel.internalAdd (t := t) hr (by rw [hd]; exact hdue ▸ rfl)
      have hw : Level now d w.1 := hdue ▸ hw
      have hwn : w.1 < n := by
        refine Nat.lt_of_not_le fun hle => ?_
        have hd' : now + 2 ^ shift w.1 ≤ d := hw.1 (h1.trans hle)
        have hpow : 2 ^ shift n ≤ 2 ^ shift w.1 :=
          Nat.pow_le_pow_right (by decide) (by unfold shift; omega)
        omega
      have hwv : w ≠ v := by
        rintro rfl
        exact Nat.lt_irrefl n hwn
      rw [wp_of_ok hadd]
      have hbehind : behind (Function.update L v ([] ++ xs)) t w v = xs := by
        rw [behind, Function.update_of_ne hwv.symm, Function.update_self]
        rfl
      have hnext : s.links.next (.timer t) =
          ((s.setLinks (s.links.del .null (.timer t))).put t w).links.next (slotHead v) := by
        have h2 := (hput.rings.ring v).path.next_eq
        rw [hbehind] at h2
        rw [h2]
        exact hring.path.2.2.next_eq
      rw [hnext]
      refine wp_mono (ih hput hr ?_) ?_
      · rw [hbehind]
        refine hk.imp (fun hlt => ?_) id
        change (L v).length < k + 1 at hlt
        rw [hlist] at hlt
        exact Nat.lt_of_succ_lt_succ hlt
      · rintro _ u ⟨L', hL', hempty, hcalm, hhigh, hspread⟩
        refine ⟨L', hL', hempty, ((@Wheel.del_calm _ _ _ _ _ _ _ _ [] _ h hlist).trans hdel.put_calm).trans hcalm,
          fun m i hm => ?_, .move hlist hd hlo hhi hw hspread⟩
        have h1' : (m, i) ≠ w := by
          rintro rfl
          exact Nat.lt_asymm hm hwn
        have h2' : (m, i) ≠ v := fun he => Nat.ne_of_gt hm (congrArg Prod.fst he)
        rw [hhigh m i hm, behind, Function.update_of_ne h1', Function.update_of_ne h2']

/-- The next slot of a vector. -/
theorem Wheel.advance (h : Wheel s now c due L []) (h1 : 1 ≤ n) (h4 : n ≤ 4)
    (hnow : now = c n * 2 ^ shift n) (hempty : L (n, c n % 64) = []) :
    Wheel (s.setIndex n ((s.index n + 1) % 64)) now (Function.update c n (c n + 1)) due L [] := by
  have hidx : ∀ m, (s.setIndex n ((s.index n + 1) % 64)).index m =
      if m = n then (s.index n + 1) % 64 else s.index m := fun m => Function.update_apply ..
  have hc : ∀ m, Function.update c n (c n + 1) m = if m = n then c n + 1 else c m :=
    fun m => Function.update_apply ..
  refine ⟨h.jiffies, ?_, ?_, ?_, h.rings, ?_, h.away, h.away_nodup, h.linked, h.cleared⟩
  · rw [hidx, if_neg (by omega)]
    exact h.index_zero
  · intro m hm1 hm4
    rw [hidx, hc]
    split
    · rw [h.index n h1 h4]
      omega
    · exact h.index m hm1 hm4
  · intro m hm1 hm4
    rw [hc]
    split
    · rename_i hmn
      subst hmn
      rw [Nat.add_mul, Nat.one_mul, ← hnow]
      exact ⟨Nat.le_add_right .., Nat.le_refl _⟩
    · exact h.fits m hm1 hm4
  · intro v x hx
    obtain ⟨t, d, rfl, hd, hp, he⟩ := h.placed v x hx
    refine ⟨t, d, rfl, hd, ?_, he⟩
    obtain ⟨m, i⟩ := v
    change Placed now c d m i at hp
    change Placed now _ d m i
    cases hp with
    | near h1' h2' => exact .near h1' h2'
    | far _ hm1 hm4 hlo hhi =>
      refine .far m hm1 hm4 ?_ ?_ <;> rw [hc]
      · split
        · rename_i hmn
          subst hmn
          -- the slot that was emptied is not this one
          refine Nat.lt_of_le_of_ne hlo fun hq => ?_
          rw [← hq, hempty] at hx
          cases hx
        · exact hlo
      · split
        · rename_i hmn
          subst hmn
          omega
        · exact hhi

theorem wp_cascadeTimers {fuel : Nat} (h1 : 1 ≤ n) (h4 : n ≤ 4) (hnow : now = c n * 2 ^ shift n)
    (h : Wheel s now c due L []) (hr : s.running = false)
    (hk : (L (n, c n % 64)).length < fuel ∨ E .hang) :
    wp E (cascadeTimers fuel n)
      (fun _ u => ∃ L', Wheel u now (Function.update c n (c n + 1)) due L' [] ∧ Calm s u ∧
        (∀ m i, n < m → L' (m, i) = L (m, i)) ∧ Spread now due (n, c n % 64) L L') s := by
  unfold cascadeTimers
  simp only [wp_bind, wp_get, wp_nextOf, h.index n h1 h4]
  refine wp_mono (wp_cascadeWalk h1 h4 hnow h hr hk) ?_
  rintro _ u ⟨L', hL', hempty, hcalm, hhigh, hspread⟩
  have hring := hL'.rings.ring (n, c n % 64)
  rw [hempty] at hring
  have hsame : u.links.initListHead (slotHead (n, c n % 64)) = u.links := by
    unfold Links.initListHead Links.setPrev Links.setNext
    simp only
    rw [Function.update_eq_self_iff.mpr hring.path.1.symm,
      Function.update_eq_self_iff.mpr hring.path.2.symm]
  simp only [wp_setLinks, wp_modify]
  change ∃ L', Wheel ((u.setLinks (u.links.initListHead (slotHead (n, c n % 64)))).setIndex n _) ..
    ∧ _
  rw [hsame]
  exact ⟨L', hL'.advance h1 h4 hnow hempty,
    ⟨hcalm.expires_eq, hcalm.ticks_eq, hcalm.running_eq, hcalm.phase_eq, hcalm.next_eq,
      hcalm.prev_eq⟩, hhigh, hspread⟩

/-! ## All vectors -/

/-- One slot of each vector from `n` on is spread, as far as the vectors go round. -/
inductive Cascaded (now : Nat) (due : Nat → Option Nat) :
    Nat → (Nat × Nat → List Node) → (Nat × Nat → List Node) → Prop
  | done {n : Nat} {L : Nat × Nat → List Node} : Cascaded now due n L L
  | next {n i : Nat} {L L' L'' : Nat × Nat → List Node} : 1 ≤ n → n ≤ 4 → 2 ^ shift n ∣ now →
    Spread now due (n, i) L L' → Cascaded now due (n + 1) L' L'' → Cascaded now due n L L''

/-- Every slot whose time has come is cascaded. -/
def Ahead (now : Nat) (c : Nat → Nat) : Prop :=
  ∀ n, 1 ≤ n → n ≤ 4 → now < c n * 2 ^ shift n

/-- The vectors from `n` on are still to be cascaded where `now` reaches their next slot. -/
def Behind (now : Nat) (c : Nat → Nat) (n : Nat) : Prop :=
  ∀ m, 1 ≤ m → m ≤ 4 → (m < n → now < c m * 2 ^ shift m) ∧
    (n ≤ m → c m * 2 ^ shift m < now + 2 ^ shift m)

/-- A vector that is behind stands at `now` if `now` is a multiple of its ticks. -/
theorem Behind.eq_of_dvd (hb : Behind now c n) (hf : Fits now c) (h1 : 1 ≤ n) (h4 : n ≤ 4)
    (hd : 2 ^ shift n ∣ now) : now = c n * 2 ^ shift n := by
  obtain ⟨k, hk⟩ := hd
  have hpos : 0 < 2 ^ shift n := Nat.two_pow_pos _
  have hlo := (hf n h1 h4).1
  have hhi := (hb n h1 h4).2 (Nat.le_refl n)
  have hk' : now = k * 2 ^ shift n := by rw [hk, Nat.mul_comm]
  rw [hk'] at hlo hhi ⊢
  rw [← Nat.succ_mul] at hhi
  have h1 := Nat.le_of_mul_le_mul_right hlo hpos
  have h2 := Nat.lt_of_mul_lt_mul_right hhi
  rw [Nat.le_antisymm h1 (Nat.le_of_lt_succ h2)]

theorem lt_of_not_dvd (hf : Fits now c) (h1 : 1 ≤ n) (h4 : n ≤ 4) (hd : ¬ 2 ^ shift n ∣ now) :
    now < c n * 2 ^ shift n := by
  refine Nat.lt_of_le_of_ne (hf n h1 h4).1 fun he => hd ?_
  rw [he]
  exact Nat.dvd_mul_left ..

theorem shift_dvd {m : Nat} (h : m ≤ n) : 2 ^ shift m ∣ 2 ^ shift n :=
  Nat.pow_dvd_pow 2 (by unfold shift; omega)

theorem wp_cascadeFrom {fuel left : Nat} (h1 : 1 ≤ n) (hn : n + left = 5)
    (hd : n ≤ 4 → 2 ^ shift n ∣ now) (hb : Behind now c n) (h : Wheel s now c due L [])
    (hr : s.running = false)
    (hk : ∀ m, n ≤ m → m ≤ 4 → (L (m, c m % 64)).length < fuel ∨ E .hang) :
    wp E (cascadeFrom fuel left n)
      (fun _ u => ∃ c' L', Wheel u now c' due L' [] ∧ Ahead now c' ∧ Calm s u ∧
        Cascaded now due n L L') s := by
  induction left generalizing s n c L with
  | zero =>
    rw [cascadeFrom, wp_pure]
    exact ⟨c, L, h, fun m hm1 hm4 => (hb m hm1 hm4).1 (by omega), .refl s, .done⟩
  | succ left ih =>
    have h4 : n ≤ 4 := by omega
    have hnow := hb.eq_of_dvd h.fits h1 h4 (hd h4)
    unfold cascadeFrom
    simp only [wp_bind, wp_get]
    refine wp_mono (wp_cascadeTimers h1 h4 hnow h hr (hk n (Nat.le_refl n) h4)) ?_
    rintro _ u ⟨L', hL', hcalm, hhigh, hspread⟩
    have hidx : u.index n = (c n + 1) % 64 := by
      rw [hL'.index n h1 h4, Function.update_self]
    have hc : ∀ m, n < m → Function.update c n (c n + 1) m = c m :=
      fun m hm => Function.update_of_ne (Nat.ne_of_gt hm) ..
    have hself : now < Function.update c n (c n + 1) n * 2 ^ shift n := by
      rw [Function.update_self, Nat.add_mul, Nat.one_mul, ← hnow]
      exact Nat.lt_add_of_pos_right (Nat.two_pow_pos _)
    have hlow : ∀ m, 1 ≤ m → m < n → now < Function.update c n (c n + 1) m * 2 ^ shift m := by
      intro m hm1 hm
      rw [Function.update_of_ne (Nat.ne_of_lt hm)]
      exact (hb m hm1 (by omega)).1 hm
    rw [wp_ite]
    refine ⟨fun hone => ?_, fun hone => ?_⟩
    · -- the vector has gone round, and the next one has to follow
      refine wp_mono (ih (Nat.le_add_left 1 n) (by omega) ?_ ?_ hL' (hcalm.running_eq.trans hr) ?_) ?_
      · intro _
        rw [hidx] at hone
        have h64 : 64 ∣ c n := by omega
        obtain ⟨q, hq⟩ := h64
        refine ⟨q, ?_⟩
        rw [hnow, hq, show shift (n + 1) = 6 + shift n by unfold shift; omega, Nat.pow_add]
        rw [Nat.mul_comm 64 q, Nat.mul_assoc, Nat.mul_comm]
      · intro m hm1 hm4
        refine ⟨fun hm => ?_, fun hm => ?_⟩
        · rcases Nat.lt_or_eq_of_le (Nat.le_of_lt_succ hm) with hlt | rfl
          · exact hlow m hm1 hlt
          · exact hself
        · rw [hc m hm]
          exact (hb m hm1 hm4).2 (by omega)
      · intro m hm hm4
        rw [hc m hm, hhigh m _ hm]
        exact hk m (by omega) hm4
      · rintro _ w ⟨c', L'', hw, ha, hcalm', hrest⟩
        exact ⟨c', L'', hw, ha, hcalm.trans hcalm', .next h1 h4 (hd h4) hspread hrest⟩
    · -- no higher vector stands at `now`
      rw [wp_pure]
      refine ⟨_, L', hL', fun m hm1 hm4 => ?_, hcalm, .next h1 h4 (hd h4) hspread .done⟩
      rcases Nat.lt_trichotomy m n with hlt | rfl | hgt
      · exact hlow m hm1 hlt
      · exact hself
      · rw [hc m hgt]
        refine lt_of_not_dvd h.fits hm1 hm4 fun hdvd => hone ?_
        have hdvd' := (shift_dvd (m := n + 1) (n := m) hgt).trans hdvd
        rw [hnow, show shift (n + 1) = shift n + 6 by unfold shift; omega, Nat.pow_add,
          Nat.mul_comm (c n)] at hdvd'
        obtain ⟨q, hq⟩ := Nat.dvd_of_mul_dvd_mul_left (Nat.two_pow_pos _) hdvd'
        rw [hidx, hq]
        omega

end Frog.Timer
