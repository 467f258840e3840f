import Frog.Timer.Wheel

/-!
# When a timer is due

Iterations are counted without end, and `timer_jiffies` is the count in 32 bits. A timer is due at the
first iteration, from the next one on, at which its expiry is reached. `Placed` is the slot where
such a timer belongs; for the levels behind the first it depends on how far each vector has been
cascaded.
-/

namespace Frog.Timer

set_option autoImplicit false

/-- The iteration in which a timer with the expiry `e` is due, when `now` is the next one. -/
def dueAt (now : Nat) (e : BitVec 32) : Nat :=
  if (e - BitVec.ofNat 32 now).slt 0 then now else now + (e - BitVec.ofNat 32 now).toNat

theorem le_dueAt (now : Nat) (e : BitVec 32) : now ≤ dueAt now e := by
  unfold dueAt
  split <;> omega

theorem slt_zero_iff (x : BitVec 32) : x.slt 0 = true ↔ 2 ^ 31 ≤ x.toNat := by
  change x.slt 0#32 = true ↔ _
  rw [BitVec.slt_zero_iff_msb_cond, BitVec.msb_eq_decide, decide_eq_true_iff]

/-- An expiry that is not past is met by the count. -/
theorem ofNat_dueAt {now : Nat} {e : BitVec 32} (h : ¬ (e - BitVec.ofNat 32 now).slt 0 = true) :
    BitVec.ofNat 32 (dueAt now e) = e := by
  rw [dueAt, if_neg h, BitVec.ofNat_add, BitVec.ofNat_toNat, BitVec.setWidth_eq,
    add_sub_cancel]

theorem dueAt_ofNat {now d : Nat} (h : now ≤ d) (hd : d < now + 2 ^ 31) :
    dueAt now (BitVec.ofNat 32 d) = d := by
  obtain ⟨k, rfl⟩ := Nat.exists_eq_add_of_le h
  have hk : k < 2 ^ 31 := by omega
  have hx : BitVec.ofNat 32 (now + k) - BitVec.ofNat 32 now = BitVec.ofNat 32 k := by
    rw [BitVec.ofNat_add, add_sub_cancel_left]
  have hkn : (BitVec.ofNat 32 k).toNat = k := by
    rw [BitVec.toNat_ofNat]
    exact Nat.mod_eq_of_lt (Nat.lt_trans hk (by decide))
  rw [dueAt, hx, if_neg, hkn]
  rw [slt_zero_iff, hkn]
  exact Nat.not_le.mpr hk

/-! ## Slots -/

/-- The ticks that one slot of `tvecs[n]` stands for, as a number of bits. -/
def shift (n : Nat) : Nat := 2 + 6 * n

/-- Where a timer belongs that is due at `d`; `c n` is the slot of `tvecs[n]` that is cascaded next,
counted without end. -/
inductive Placed (now : Nat) (c : Nat → Nat) (d : Nat) : Nat → Nat → Prop
  | near : now ≤ d → d < now + 256 → Placed now c d 0 (d % 256)
  | far (n : Nat) : 1 ≤ n → n ≤ 4 → c n ≤ d / 2 ^ shift n → d / 2 ^ shift n < c n + 64 →
      Placed now c d n (d / 2 ^ shift n % 64)

/-- How far the vectors have been cascaded. -/
def Fits (now : Nat) (c : Nat → Nat) : Prop :=
  ∀ n, 1 ≤ n → n ≤ 4 → now ≤ c n * 2 ^ shift n ∧ c n * 2 ^ shift n ≤ now + 2 ^ shift n

theorem placed_far {now d n : Nat} {c : Nat → Nat} (hc : Fits now c) (h1 : 1 ≤ n) (h4 : n ≤ 4)
    (hlo : now + 2 ^ shift n ≤ d) (hhi : d < now + 2 ^ shift n * 64) :
    Placed now c d n (d / 2 ^ shift n % 64) := by
  obtain ⟨hc1, hc2⟩ := hc n h1 h4
  have hpos : 0 < 2 ^ shift n := Nat.two_pow_pos _
  refine .far n h1 h4 ((Nat.le_div_iff_mul_le hpos).mpr (hc2.trans hlo)) ?_
  rw [Nat.div_lt_iff_lt_mul hpos, Nat.add_mul]
  have : now + 2 ^ shift n * 64 ≤ c n * 2 ^ shift n + 64 * 2 ^ shift n := by
    rw [Nat.mul_comm 64]
    exact Nat.add_le_add_right hc1 _
  exact Nat.lt_of_lt_of_le hhi this

/-- The vector that suits a timer due at `d`: its slots are no longer than the wait, and those of the
next one are. -/
def Level (now d n : Nat) : Prop :=
  (1 ≤ n → now + 2 ^ shift n ≤ d) ∧ ∀ m, n < m → m ≤ 4 → d < now + 2 ^ shift m

theorem Level.of_lt {now d n : Nat} (hlo : 1 ≤ n → now + 2 ^ shift n ≤ d)
    (hhi : d < now + 2 ^ shift (n + 1)) : Level now d n := by
  refine ⟨hlo, ?_⟩
  intro m hm _
  have hpow : 2 ^ shift (n + 1) ≤ 2 ^ shift m :=
    Nat.pow_le_pow_right (by decide) (by unfold shift; omega)
  omega

theorem Placed.le {now d n i : Nat} {c : Nat → Nat} (hc : Fits now c) (h : Placed now c d n i) :
    now ≤ d := by
  cases h with
  | near h => exact h
  | far _ h1 h4 hlo _ =>
    have hpos : 0 < 2 ^ shift n := Nat.two_pow_pos _
    exact (hc n h1 h4).1.trans ((Nat.le_div_iff_mul_le hpos).mp hlo)

theorem slot_toNat (e : BitVec 32) (k : Nat) : (e >>> k &&& 63).toNat = e.toNat / 2 ^ k % 64 := by
  rw [BitVec.toNat_and, BitVec.toNat_ushiftRight, Nat.shiftRight_eq_div_pow]
  exact Nat.and_two_pow_sub_one_eq_mod _ 6

/-- The slot does not depend on what the 32 bits leave out. -/
theorem slot_eq {d k : Nat} (hk : k ≤ 26) :
    (BitVec.ofNat 32 d >>> k &&& 63).toNat = d / 2 ^ k % 64 := by
  rw [slot_toNat, BitVec.toNat_ofNat]
  obtain ⟨m, hm⟩ := Nat.exists_eq_add_of_le (show k + 6 ≤ 32 by omega)
  rw [hm, Nat.add_assoc, Nat.pow_add, Nat.mod_mul_right_div_self]
  exact Nat.mod_mod_of_dvd _ ⟨2 ^ m, by rw [Nat.pow_add]⟩

/-- `internal_add_timer` finds the slot where a timer belongs. -/
theorem vecFor_placed {s : State} {now : Nat} {c : Nat → Nat} (hr : s.running = false)
    (hj : s.timerJiffies = BitVec.ofNat 32 now) (hi : s.index 0 = now % 256) (hc : Fits now c)
    (e : BitVec 32) :
    ∃ n i, s.vecFor e = .vec n i ∧ Placed now c (dueAt now e) n i ∧
      (1 ≤ n → e = BitVec.ofNat 32 (dueAt now e)) ∧ Level now (dueAt now e) n := by
  have hneg := slt_zero_iff (e - BitVec.ofNat 32 now)
  have hof := @ofNat_dueAt now e
  have hdue : dueAt now e = if (e - BitVec.ofNat 32 now).slt 0 then now
    else now + (e - BitVec.ofNat 32 now).toNat := rfl
  unfold State.vecFor
  simp only [hr, hj, Bool.false_eq_true, if_false]
  generalize e - BitVec.ofNat 32 now = x at hneg hof hdue
  have hlt : ∀ k, k < 32 → (x < 1#32 <<< k ↔ x.toNat < 2 ^ k) := by
    intro k hk
    rw [BitVec.lt_def, BitVec.toNat_shiftLeft, Nat.shiftLeft_eq]
    rw [show BitVec.toNat 1#32 = 1 from rfl, Nat.one_mul,
      Nat.mod_eq_of_lt (Nat.pow_lt_pow_right (by decide) hk)]
  by_cases hs : x.slt 0 = true
  · -- a past expiry is above all the bounds
    have hbig := hneg.mp hs
    have hnot : ∀ k, k ≤ 26 → ¬ x < 1#32 <<< k := by
      intro k hk hx
      have hx' := (hlt k (by omega)).mp hx
      have hpow : 2 ^ k ≤ 2 ^ 26 := Nat.pow_le_pow_right (by decide) hk
      omega
    rw [if_neg (hnot 8 (by decide)), if_neg (hnot 14 (by decide)), if_neg (hnot 20 (by decide)),
      if_neg (hnot 26 (by decide)), if_pos hs, hi]
    rw [if_pos hs] at hdue
    rw [hdue]
    refine ⟨0, _, rfl, .near (Nat.le_refl _) (by omega), fun h => absurd h (by decide), ?_⟩
    exact .of_lt (fun h => absurd h (by decide)) (by simp only [shift]; omega)
  · have hsmall : x.toNat < 2 ^ 31 := by
      have := mt hneg.mpr hs
      omega
    have he := (hof hs).symm
    rw [if_neg hs] at hdue
    have hfar : ∀ n, 1 ≤ n → n ≤ 4 → 2 ^ shift n ≤ x.toNat → x.toNat < 2 ^ shift n * 64 →
        Placed now c (dueAt now e) n (e >>> shift n &&& 63).toNat ∧
          (1 ≤ n → e = BitVec.ofNat 32 (dueAt now e)) ∧ Level now (dueAt now e) n := by
      intro n h1 h4 hlo hhi
      have hnext : 2 ^ shift n * 64 = 2 ^ shift (n + 1) := by
        rw [show shift (n + 1) = shift n + 6 by unfold shift; omega, Nat.pow_add]
      have hslot : (e >>> shift n &&& 63).toNat = dueAt now e / 2 ^ shift n % 64 := by
        rw [← slot_eq (show shift n ≤ 26 by unfold shift; omega), ← he]
      rw [hslot]
      exact ⟨placed_far hc h1 h4 (by omega) (by omega), fun _ => he,
        .of_lt (fun _ => by omega) (by omega)⟩
    by_cases h8 : x < 1#32 <<< 8
    · rw [if_pos h8]
      have hx := (hlt 8 (by decide)).mp h8
      refine ⟨0, _, rfl, ?_, fun h => absurd h (by decide),
        .of_lt (fun h => absurd h (by decide)) (by simp only [shift]; omega)⟩
      have hslot : (e &&& 255).toNat = dueAt now e % 256 := by
        rw [BitVec.toNat_and]
        refine (Nat.and_two_pow_sub_one_eq_mod _ 8).trans ?_
        have hmod : e.toNat = dueAt now e % 2 ^ 32 := by
          rw [← BitVec.toNat_ofNat, ← he]
        rw [hmod]
        exact Nat.mod_mod_of_dvd _ (by decide)
      rw [hslot]
      exact .near (by omega) (by omega)
    · rw [if_neg h8]
      have h8' := mt (hlt 8 (by decide)).mpr h8
      by_cases h14 : x < 1#32 <<< 14
      · rw [if_pos h14]
        have hx := (hlt 14 (by decide)).mp h14
        exact ⟨1, _, rfl, hfar 1 (by decide) (by decide) (by simp only [shift]; omega)
          (by simp only [shift]; omega)⟩
      · rw [if_neg h14]
        have h14' := mt (hlt 14 (by decide)).mpr h14
        by_cases h20 : x < 1#32 <<< 20
        · rw [if_pos h20]
          have hx := (hlt 20 (by decide)).mp h20
          exact ⟨2, _, rfl, hfar 2 (by decide) (by decide) (by simp only [shift]; omega)
            (by simp only [shift]; omega)⟩
        · rw [if_neg h20]
          have h20' := mt (hlt 20 (by decide)).mpr h20
          by_cases h26 : x < 1#32 <<< 26
          · rw [if_pos h26]
            have hx := (hlt 26 (by decide)).mp h26
            exact ⟨3, _, rfl, hfar 3 (by decide) (by decide) (by simp only [shift]; omega)
              (by simp only [shift]; omega)⟩
          · rw [if_neg h26, if_neg hs]
            have h26' := mt (hlt 26 (by decide)).mpr h26
            exact ⟨4, _, rfl, hfar 4 (by decide) (by decide) (by simp only [shift]; omega)
              (by simp only [shift]; omega)⟩

end Frog.Timer
