import Frog.Compositor.Gfx

/-!
# Alpha blending

What `alpha_blend_rgba` of `2d_graphics.c` makes of two colours, channel by channel.
-/

namespace Frog.Compositor

set_option autoImplicit false

/-- `n / d` to the nearest integer. -/
def nearest (n d : Nat) : Nat := (2 * n + d) / (2 * d)

/-- The value of a channel. -/
def value (color : Word) (shift : Nat) : Nat := (channel color shift).toNat

/-- The bottom's channel seen through the top. -/
def through (bottom top : Word) (shift : Nat) : Nat := value bottom shift * (255 - value top 24)

def blended (bottom top : Word) (shift : Nat) : Nat :=
  value top shift + nearest (through bottom top shift) 255

/-- The channel is blended, and no variable of the code is too small for it. -/
structure Blends (bottom top : Word) (shift : Nat) : Prop where
  exact : value (alphaBlendRgba bottom top) shift = blended bottom top shift
  range : blended bottom top shift ≤ 255
  rest : 255 - value top 24 < 2 ^ 16
  product : (through bottom top shift + 0x80) * 0x101 < 2 ^ 32
  sum : value top shift + (through bottom top shift + 0x80) * 0x101 / 2 ^ 16 < 2 ^ 8

/-- The channel of a sum that fits. -/
def Fitting (bottom top : Word) (shift : Nat) : Prop :=
  255 * value top shift + through bottom top shift ≤ 255 * 255 + 127

variable {bottom top color : Word} {shift : Nat}

/-- Multiplying and shifting divides by 255. -/
theorem scaled_eq_nearest {p : Nat} (hp : p ≤ 255 * 255) :
    (p + 0x80) * 0x101 / 2 ^ 16 = nearest p 255 := by
  obtain ⟨k, e, he, rfl⟩ : ∃ k e, e < 255 ∧ p = 255 * k + e :=
    ⟨p / 255, p % 255, Nat.mod_lt _ (by decide), (Nat.div_add_mod p 255).symm⟩
  unfold nearest
  rcases Nat.lt_or_ge e 128 with hlow | hhigh
  · omega
  · omega

/-! ## Channels -/

theorem low_byte (i : Nat) : (0xFF : Word).getLsbD i = decide (i < 8) := by
  by_cases h : i < 8
  · rw [decide_eq_true h]
    interval_cases i <;> rfl
  · rw [decide_eq_false h]
    apply Nat.testBit_lt_two_pow
    exact Nat.lt_of_lt_of_le (by decide : 255 < 2 ^ 8) (Nat.pow_le_pow_right (by decide) (by omega))

theorem value_lt (color : Word) (shift : Nat) : value color shift < 256 := by
  unfold value channel
  rw [BitVec.toNat_and]
  exact Nat.lt_of_le_of_lt Nat.and_le_right (by decide)

/-- A colour made of four bytes has them as its channels. -/
theorem channel_rgba (r g b a : Word) :
    channel (rgba (r &&& 0xFF) (g &&& 0xFF) (b &&& 0xFF) (a &&& 0xFF)) 16 = r &&& 0xFF ∧
    channel (rgba (r &&& 0xFF) (g &&& 0xFF) (b &&& 0xFF) (a &&& 0xFF)) 8 = g &&& 0xFF ∧
    channel (rgba (r &&& 0xFF) (g &&& 0xFF) (b &&& 0xFF) (a &&& 0xFF)) 0 = b &&& 0xFF ∧
    channel (rgba (r &&& 0xFF) (g &&& 0xFF) (b &&& 0xFF) (a &&& 0xFF)) 24 = a &&& 0xFF := by
  refine ⟨?_, ?_, ?_, ?_⟩ <;>
  · apply BitVec.eq_of_getLsbD_eq
    intro i hi
    simp only [channel, rgba, BitVec.getLsbD_and, BitVec.getLsbD_or, BitVec.getLsbD_shiftLeft,
      BitVec.getLsbD_ushiftRight, low_byte]
    grind

/-- The four channels. -/
def shifts : List Nat := [16, 8, 0, 24]

/-- The channels of the colour. -/
def hues : List Nat := [16, 8, 0]

theorem channel_blend (h : channel bottom 24 ≠ 0) (h255 : channel top 24 ≠ 255)
    (h0 : channel top 24 ≠ 0) (hshift : shift ∈ shifts) :
    channel (alphaBlendRgba bottom top) shift =
      blendChannel bottom top (0xFF ^^^ channel top 24) shift := by
  unfold alphaBlendRgba blendChannel
  rw [if_neg h, if_neg h255, if_neg h0]
  obtain ⟨hr, hg, hb, ha⟩ := channel_rgba
    (channel top 16 + ((channel bottom 16 * (0xFF ^^^ channel top 24) + 0x80) * 0x101) >>> 16)
    (channel top 8 + ((channel bottom 8 * (0xFF ^^^ channel top 24) + 0x80) * 0x101) >>> 16)
    (channel top 0 + ((channel bottom 0 * (0xFF ^^^ channel top 24) + 0x80) * 0x101) >>> 16)
    (channel top 24 + ((channel bottom 24 * (0xFF ^^^ channel top 24) + 0x80) * 0x101) >>> 16)
  simp only [shifts, List.mem_cons, List.not_mem_nil, or_false] at hshift
  rcases hshift with rfl | rfl | rfl | rfl
  · exact hr
  · exact hg
  · exact hb
  · exact ha

theorem xor_eq_sub : ∀ x : Fin 256, 255 ^^^ x.val = 255 - x.val := by decide +kernel

theorem rest_toNat (color : Word) : (0xFF ^^^ channel color 24).toNat = 255 - value color 24 := by
  rw [BitVec.toNat_xor]
  exact xor_eq_sub ⟨value color 24, value_lt color 24⟩

theorem through_le (bottom top : Word) (shift : Nat) : through bottom top shift ≤ 255 * 255 := by
  have hv := value_lt bottom shift
  exact Nat.mul_le_mul (by omega) (Nat.sub_le _ _)

/-- The code keeps the sum in a byte. -/
theorem blendChannel_toNat : (blendChannel bottom top (0xFF ^^^ channel top 24) shift).toNat =
    blended bottom top shift % 256 := by
  have hle := through_le bottom top shift
  have hv := value_lt top shift
  have hmul : (channel bottom shift * (0xFF ^^^ channel top 24)).toNat = through bottom top shift := by
    rw [BitVec.toNat_mul, rest_toNat]
    exact Nat.mod_eq_of_lt (Nat.lt_of_le_of_lt hle (by decide))
  have hscaled : (((channel bottom shift * (0xFF ^^^ channel top 24) + 0x80) * 0x101) >>> 16).toNat =
      nearest (through bottom top shift) 255 := by
    rw [BitVec.toNat_ushiftRight, BitVec.toNat_mul, BitVec.toNat_add, hmul,
      Nat.shiftRight_eq_div_pow, ← scaled_eq_nearest hle]
    simp only [BitVec.reduceToNat]
    rw [Nat.mod_eq_of_lt (a := through bottom top shift + 128) (by omega), Nat.mod_eq_of_lt (by omega)]
  have hnear : nearest (through bottom top shift) 255 ≤ 255 := by
    unfold nearest
    omega
  unfold blendChannel blended
  rw [BitVec.toNat_and, BitVec.toNat_add, hscaled]
  change (value top shift + _) % 2 ^ 32 &&& 2 ^ 8 - 1 = _
  rw [Nat.and_two_pow_sub_one_eq_mod, Nat.mod_eq_of_lt (a := _ + _) (by omega)]

/-! ## The blended colour -/

theorem blended_le_iff : blended bottom top shift ≤ 255 ↔ Fitting bottom top shift := by
  unfold blended Fitting nearest
  omega

/-- The alpha of the result always fits. -/
theorem fitting_alpha (bottom top : Word) : Fitting bottom top 24 := by
  have htop := value_lt top 24
  have hmul : through bottom top 24 ≤ 255 * (255 - value top 24) :=
    Nat.mul_le_mul_right _ (Nat.le_of_lt_succ (value_lt bottom 24))
  unfold Fitting
  omega

theorem blends_iff_exact : Blends bottom top shift ↔
    Fitting bottom top shift ∧ value (alphaBlendRgba bottom top) shift = blended bottom top shift := by
  constructor
  · intro h
    exact ⟨Iff.mp blended_le_iff h.range, h.exact⟩
  · intro h
    have hrange := Iff.mpr blended_le_iff h.1
    have hle := through_le bottom top shift
    refine ⟨h.2, hrange, by omega, by omega, ?_⟩
    rw [scaled_eq_nearest hle]
    exact Nat.lt_succ_of_le hrange

/-- Under a top that is neither opaque nor clear each channel is blended unless its sum is too large. -/
theorem blends_iff_fitting (h : channel bottom 24 ≠ 0) (h0 : channel top 24 ≠ 0)
    (hshift : shift ∈ shifts) : Blends bottom top shift ↔ Fitting bottom top shift := by
  rw [blends_iff_exact]
  apply and_iff_left_of_imp
  intro hfit
  have hle := Iff.mpr blended_le_iff hfit
  by_cases h255 : channel top 24 = 255
  · have hclear : through bottom top shift = 0 := by
      unfold through value
      rw [h255]
      exact Nat.mul_zero _
    unfold blended alphaBlendRgba
    rw [if_neg h, if_pos h255, hclear]
    rfl
  · unfold value
    rw [channel_blend h h255 h0 hshift, blendChannel_toNat]
    exact Nat.mod_eq_of_lt (Nat.lt_succ_of_le hle)

/-- Under a clear top the bottom is kept: a channel is blended when the top has nothing of it. -/
theorem blends_clear_iff (h : channel bottom 24 ≠ 0) (h0 : channel top 24 = 0) :
    Blends bottom top shift ↔ value top shift = 0 := by
  have hv := value_lt bottom shift
  have hall : through bottom top shift = value bottom shift * 255 := by
    unfold through
    rw [show value top 24 = 0 by unfold value; rw [h0]; rfl]
  have hsame : alphaBlendRgba bottom top = bottom := by
    unfold alphaBlendRgba
    rw [if_neg h, if_neg (by rw [h0]; decide), if_pos h0]
  rw [blends_iff_exact, hsame]
  unfold Fitting blended nearest
  rw [hall]
  omega

/-- Each channel is blended exactly when a clear top is black and no channel's sum is too large. -/
theorem blends_iff (h : channel bottom 24 ≠ 0) : (∀ shift ∈ shifts, Blends bottom top shift) ↔
    (channel top 24 = 0 → ∀ shift ∈ hues, value top shift = 0) ∧
      ∀ shift ∈ hues, Fitting bottom top shift := by
  have hsub : ∀ shift ∈ hues, shift ∈ shifts := by decide
  constructor
  · intro hall
    constructor
    · intro h0 shift hshift
      exact (blends_clear_iff h h0).mp (hall shift (hsub shift hshift))
    · intro shift hshift
      exact (blends_iff_exact.mp (hall shift (hsub shift hshift))).1
  · intro hcond shift hshift
    by_cases h0 : channel top 24 = 0
    · apply (blends_clear_iff h h0).mpr
      rcases List.mem_append.mp (show shift ∈ hues ++ [24] from hshift) with hhue | halpha
      · exact hcond.1 h0 shift hhue
      · rw [List.mem_singleton.mp halpha]
        unfold value
        rw [h0]
        rfl
    · apply (blends_iff_fitting h h0 hshift).mpr
      rcases List.mem_append.mp (show shift ∈ hues ++ [24] from hshift) with hhue | halpha
      · exact hcond.2 shift hhue
      · rw [List.mem_singleton.mp halpha]
        exact fitting_alpha bottom top

theorem blends_half_black : channel 0xFFFFFFFF 24 ≠ 0 ∧
    ∀ shift ∈ shifts, Blends 0xFFFFFFFF 0x80000000 shift :=
  ⟨by decide, (blends_iff (by decide)).mpr ⟨by decide, by unfold Fitting; decide⟩⟩

/-- Half transparent white over white: 255 and 127 are 382, and 126 is kept of it. -/
theorem white_over_white : channel 0xFFFFFFFF 24 ≠ 0 ∧
    value (alphaBlendRgba 0xFFFFFFFF 0x80FFFFFF) 16 = 126 ∧ ¬ Blends 0xFFFFFFFF 0x80FFFFFF 16 := by
  refine ⟨by decide, by decide, fun h => ?_⟩
  exact absurd h.range (by decide)

end Frog.Compositor
