import Frog.Compositor.Gfx

/-!
# The pixels of a sprite

Which pixels of the screen `draw_sprite` writes. An opaque sprite starts at a column that is a
`uint_16`; 65536 columns left of the screen it wraps.
-/

set_option autoImplicit false

namespace Frog.Compositor

open Prog Painter

/-- A context with pixels, and sizes of type `int`. -/
structure Context.Proper (c : Context) : Prop extends c.Fits where
  width_pos : 0 < c.width
  height_pos : 0 < c.height
  width_lt : c.width < 2147483648
  height_lt : c.height < 2147483648

/-- A context whose sizes are those of a screen. -/
structure Context.Real (c : Context) : Prop extends c.Fits where
  width_pos : 0 < c.width
  height_pos : 0 < c.height
  width_lt : c.width < 65536
  height_lt : c.height < 65536

theorem Context.Real.proper {c : Context} (h : c.Real) : c.Proper :=
  ⟨h.toFits, h.width_pos, h.height_pos, h.width_lt.trans (by decide), h.height_lt.trans (by decide)⟩

/-- The first column of an opaque sprite does not wrap. -/
def Sprite.Straight (s : Sprite) (x : Int) : Prop :=
  match s.alpha with
  | .embedded => True
  | .opaqued => -65536 < x

/-- The point `(px, py)` is one of the sprite at `(x, y)`. -/
def Sprite.Has (s : Sprite) (x y px py : Int) : Prop :=
  (x ≤ px ∧ px < x + s.width) ∧ y ≤ py ∧ py < y + s.height

instance (s : Sprite) (x y px py : Int) : Decidable (s.Has x y px py) :=
  inferInstanceAs (Decidable (_ ∧ _))

section Bounds
variable {c : Context} {s : Sprite} {x y i j : Int}

/-- The sum of two coordinates wraps to a negative one. -/
theorem i32_add (hx : IsInt x) (hi : 0 ≤ i ∧ i < 65536) :
    x + i < 2147483648 ∧ i32 (x + i) = x + i ∨ 2147483648 ≤ x + i ∧ i32 (x + i) < 0 := by
  unfold IsInt at hx
  rcases lt_or_ge (x + i) 2147483648 with h | h
  · exact .inl ⟨h, i32_of_small (by omega) h⟩
  · refine .inr ⟨h, ?_⟩
    rw [i32, Int.bmod_def]
    omega

/-- In a context of no size the unsigned comparison takes the end of the sprite for the end of the
context. -/
theorem le_farEdge {n pos size bound : Int} (hpos : IsInt pos) (hsize : 0 ≤ size ∧ size < 65536)
    (hbound : 0 ≤ bound ∧ bound < 4294967296) (hn : 0 ≤ n ∧ n < pos + size) (hn' : n < 2147483648) :
    n ≤ farEdge pos size bound ↔
      if bound = 0 then pos + size < 2147483648
      else n < bound ∧ (bound ≤ 2147483648 ∨ pos + size < 2147483648) := by
  unfold IsInt at hpos
  have hend : u32 (i32 (pos + size)) = pos + size := by
    unfold u32 i32
    rw [Int.bmod_def]
    split <;> omega
  have hlast : u32 (bound - 1) = if bound = 0 then 4294967295 else bound - 1 := by
    unfold u32
    split <;> omega
  unfold farEdge minU
  rw [hend, hlast]
  split
  · rw [if_pos (by omega)]
    rw [i32, i32, Int.bmod_def, Int.bmod_def]
    split <;> split <;> omega
  · split
    · rw [i32, i32, Int.bmod_def, Int.bmod_def]
      split <;> split <;> omega
    · rw [i32, Int.bmod_def]
      split <;> omega

theorem mem_spriteRows_iff (hy : IsInt y) : j ∈ spriteRows c s y ↔ (0 ≤ j ∧ j < s.height) ∧
    (0 ≤ y + j ∧ y + j < 2147483648 ∧ y + j ≤ farEdge y s.height c.height) ∧
      isInClip c (y + j) = true := by
  have hh := s.height_range
  have hsort : (between 0 s.height).Pairwise (· < ·) := sorted_between
  have hmem : ∀ k, k ∈ (between 0 s.height).filter (fun j => decide (max y 0 ≤ i32 (y + j))) →
      (0 ≤ k ∧ k < s.height) ∧ 0 ≤ y + k ∧ y + k < 2147483648 ∧ i32 (y + k) = y + k := by
    intro k hk
    rw [List.mem_filter, mem_between, decide_eq_true_eq] at hk
    rcases i32_add hy ⟨hk.1.1, by omega⟩ with ⟨hlt, heq⟩ | ⟨-, hneg⟩
    · exact ⟨hk.1, by omega, hlt, heq⟩
    · omega
  rw [spriteRows, List.mem_filter, mem_takeWhile_sorted (hsort.filter _)]
  constructor
  · intro h
    obtain ⟨⟨hj, hall⟩, hclip⟩ := h
    obtain ⟨hrange, h0, hlt, heq⟩ := hmem j hj
    have hle := of_decide_eq_true (hall j hj (le_refl j))
    rw [heq] at hle hclip
    exact ⟨hrange, ⟨h0, hlt, hle⟩, hclip⟩
  · intro h
    obtain ⟨hrange, ⟨h0, hlt, hle⟩, hclip⟩ := h
    have heq : i32 (y + j) = y + j := by
      unfold IsInt at hy
      exact i32_of_small (by omega) hlt
    refine ⟨⟨?_, ?_⟩, by rw [heq]; exact hclip⟩
    · rw [List.mem_filter, mem_between, decide_eq_true_eq, heq]
      exact ⟨hrange, by omega⟩
    · intro k hk hkj
      obtain ⟨-, -, -, hk⟩ := hmem k hk
      rw [decide_eq_true_eq, hk]
      omega

theorem mem_spriteRows (hc : c.Proper) (hy : IsInt y) :
    j ∈ spriteRows c s y ↔ (0 ≤ j ∧ j < s.height) ∧ (0 ≤ y + j ∧ y + j < c.height) ∧
      isInClip c (y + j) = true := by
  have hpos := hc.height_pos
  have hlt := hc.height_lt
  rw [mem_spriteRows_iff hy]
  constructor
  · intro h
    obtain ⟨hj, ⟨h0, hmax, hle⟩, hclip⟩ := h
    rw [le_farEdge hy s.height_range (by omega) (by omega) hmax, if_neg (by omega)] at hle
    exact ⟨hj, ⟨h0, hle.1⟩, hclip⟩
  · intro h
    obtain ⟨hj, ⟨h0, hle⟩, hclip⟩ := h
    refine ⟨hj, ⟨h0, by omega, ?_⟩, hclip⟩
    rw [le_farEdge hy s.height_range (by omega) (by omega) (by omega), if_neg (by omega)]
    omega

theorem mem_spriteCols_embedded (ha : s.alpha = .embedded) (hx : IsInt x) :
    i ∈ spriteCols c s x ↔ (0 ≤ i ∧ i < s.width) ∧
      0 ≤ x + i ∧ x + i < 2147483648 ∧ x + i ≤ farEdge x s.width c.width := by
  have hw := s.width_range
  unfold spriteCols
  rw [ha]
  simp only [List.mem_filter, mem_between, decide_eq_true_eq]
  constructor
  · intro h
    obtain ⟨hi, hl, hr⟩ := h
    rcases i32_add hx ⟨hi.1, by omega⟩ with ⟨hlt, heq⟩ | ⟨-, hneg⟩
    · rw [heq] at hl hr
      exact ⟨hi, by omega, hlt, hr⟩
    · omega
  · intro h
    obtain ⟨hi, h0, hlt, hle⟩ := h
    have heq : i32 (x + i) = x + i := by
      unfold IsInt at hx
      exact i32_of_small (by omega) hlt
    rw [heq]
    exact ⟨hi, by omega, hle⟩

/-- The first column of an opaque sprite. -/
def firstCol (x : Int) : Int := if x < max x 0 then u16 (max x 0 - x) else 0

theorem mem_spriteCols_opaqued (ha : s.alpha = .opaqued) :
    i ∈ spriteCols c s x ↔ (firstCol x ≤ i ∧ i < s.width) ∧
      ∀ k, firstCol x ≤ k → k ≤ i → i32 (x + k) ≤ farEdge x s.width c.width := by
  unfold spriteCols
  rw [ha]
  change i ∈ (between (firstCol x) s.width).takeWhile _ ↔ _
  rw [mem_takeWhile_sorted sorted_between, mem_between]
  constructor
  · intro h
    obtain ⟨hi, hall⟩ := h
    refine ⟨hi, fun k hk hki => ?_⟩
    exact of_decide_eq_true (hall k (mem_between.mpr ⟨hk, by omega⟩) hki)
  · intro h
    obtain ⟨hi, hall⟩ := h
    refine ⟨hi, fun k hk hki => ?_⟩
    exact decide_eq_true (hall k (mem_between.mp hk).1 hki)

theorem firstCol_straight (hx : -65536 < x) : firstCol x = max (-x) 0 := by
  unfold firstCol u16
  split <;> omega

/-- The columns of an opaque sprite that starts where it should. -/
theorem mem_spriteCols_straight (ha : s.alpha = .opaqued) (hx : IsInt x) (hst : -65536 < x)
    (hc : 0 ≤ c.width ∧ c.width < 2147483648) :
    i ∈ spriteCols c s x ↔ (0 ≤ i ∧ i < s.width) ∧
      0 ≤ x + i ∧ x + i < 2147483648 ∧ x + i ≤ farEdge x s.width c.width := by
  have hw := s.width_range
  have hx' := hx
  unfold IsInt at hx'
  rw [mem_spriteCols_opaqued ha, firstCol_straight hst]
  constructor
  · intro h
    obtain ⟨hi, hall⟩ := h
    have hsmall : x + i < 2147483648 := by
      by_contra hlarge
      -- The loop has met the column where the context ends, or the start of the sprite.
      have hend := hall (max (c.width - x) 0) (by omega) (by omega)
      rw [i32_of_small (by omega) (by omega), le_farEdge hx hw (by omega) (by omega) (by omega)] at hend
      split at hend <;> omega
    have hle := hall i (by omega) (le_refl i)
    rw [i32_of_small (by omega) hsmall] at hle
    exact ⟨by omega, by omega, hsmall, hle⟩
  · intro h
    obtain ⟨hi, h0, hmax, hle⟩ := h
    refine ⟨by omega, fun k hk hki => ?_⟩
    rw [i32_of_small (by omega) (by omega)]
    omega

theorem mem_spriteCols (hc : c.Proper) (hx : IsInt x) (hst : s.Straight x) :
    i ∈ spriteCols c s x ↔ (0 ≤ i ∧ i < s.width) ∧ 0 ≤ x + i ∧ x + i < c.width := by
  have hpos := hc.width_pos
  have hlt := hc.width_lt
  have hcols : i ∈ spriteCols c s x ↔ (0 ≤ i ∧ i < s.width) ∧
      0 ≤ x + i ∧ x + i < 2147483648 ∧ x + i ≤ farEdge x s.width c.width := by
    unfold Sprite.Straight at hst
    cases ha : s.alpha with
    | embedded => exact mem_spriteCols_embedded ha hx
    | opaqued =>
      rw [ha] at hst
      exact mem_spriteCols_straight ha hx hst ⟨by omega, by omega⟩
  rw [hcols]
  constructor
  · intro h
    obtain ⟨hi, h0, hmax, hle⟩ := h
    rw [le_farEdge hx s.width_range (by omega) (by omega) hmax, if_neg (by omega)] at hle
    exact ⟨hi, h0, hle.1⟩
  · intro h
    obtain ⟨hi, h0, hle⟩ := h
    refine ⟨hi, h0, by omega, ?_⟩
    rw [le_farEdge hx s.width_range (by omega) (by omega) (by omega), if_neg (by omega)]
    omega

theorem nodup_spriteRows : (spriteRows c s y).Nodup := by
  refine List.Nodup.filter _ (List.Nodup.sublist (List.takeWhile_sublist _) ?_)
  exact nodup_between.filter _

theorem nodup_spriteCols : (spriteCols c s x).Nodup := by
  unfold spriteCols
  split
  · exact nodup_between.filter _
  · exact nodup_between.sublist (List.takeWhile_sublist _)

end Bounds

/-! ## Writes -/

section Writes
variable {c : Context} {s : Sprite} {x y : Int}

theorem mem_spriteWrites {e : Int × (Word → Word)} : e ∈ spriteWrites c s x y ↔
    ∃ j ∈ spriteRows c s y, ∃ i ∈ spriteCols c s x,
      e = (c.index (i32 (x + i)) (i32 (y + j)), spritePut s i j) := by
  simp only [spriteWrites, List.mem_flatMap, List.mem_map, eq_comm]

/-- The coordinates on a screen do not wrap. -/
theorem i32_row (hc : c.Proper) (hy : IsInt y) {j : Int} (hj : j ∈ spriteRows c s y) :
    i32 (y + j) = y + j := by
  have hrow := ((mem_spriteRows hc hy).mp hj).2.1
  have hlt := hc.height_lt
  exact i32_of_small (by omega) (by omega)

theorem i32_col (hc : c.Proper) (hx : IsInt x) (hst : s.Straight x) {i : Int}
    (hi : i ∈ spriteCols c s x) : i32 (x + i) = x + i := by
  have hcol := ((mem_spriteCols hc hx hst).mp hi).2
  have hlt := hc.width_lt
  exact i32_of_small (by omega) (by omega)

theorem spriteWrites_inside (hc : c.Proper) (hx : IsInt x) (hy : IsInt y)
    (hst : s.Straight x) : ∀ e ∈ spriteWrites c s x y, c.Inside e := by
  intro e he
  obtain ⟨j, hj, i, hi, rfl⟩ := mem_spriteWrites.mp he
  rw [i32_row hc hy hj, i32_col hc hx hst hi]
  have hi := (mem_spriteCols hc hx hst).mp hi
  have hj := (mem_spriteRows hc hy).mp hj
  exact ⟨_, _, hi.2, hj.2.1, rfl⟩

theorem nodup_spriteWrites (hc : c.Proper) (hx : IsInt x) (hy : IsInt y) (hst : s.Straight x) :
    ((spriteWrites c s x y).map Prod.fst).Nodup := by
  have hmap : (spriteWrites c s x y).map Prod.fst = (spriteRows c s y).flatMap fun j =>
      (spriteCols c s x).map fun i => c.index (i32 (x + i)) (i32 (y + j)) := by
    rw [spriteWrites, List.map_flatMap]
    simp only [List.map_map, Function.comp_def]
  have hcol : ∀ i ∈ spriteCols c s x, 0 ≤ x + i ∧ x + i < c.width := fun i hi =>
    ((mem_spriteCols hc hx hst).mp hi).2
  rw [hmap, List.nodup_flatMap]
  constructor
  · intro j _
    refine nodup_spriteCols.map_on fun i hi i' hi' he => ?_
    rw [i32_col hc hx hst hi, i32_col hc hx hst hi'] at he
    have := ((hc.index_inj (hcol i hi) (hcol i' hi')).mp he).1
    omega
  · refine nodup_spriteRows.imp_of_mem ?_
    intro j j' hj hj' hne n hn hn'
    obtain ⟨i, hi, rfl⟩ := List.mem_map.mp hn
    obtain ⟨i', hi', he⟩ := List.mem_map.mp hn'
    rw [i32_col hc hx hst hi, i32_col hc hx hst hi', i32_row hc hy hj, i32_row hc hy hj'] at he
    have := ((hc.index_inj (hcol i' hi') (hcol i hi)).mp he).2
    exact hne (by omega)

/-- Which pixels of the screen are written at all. -/
theorem any_spriteWrites (hc : c.Proper) (hx : IsInt x) (hy : IsInt y)
    (hst : s.Straight x) {px py : Int} (hpx : 0 ≤ px ∧ px < c.width)
    (hpy : 0 ≤ py ∧ py < c.height) :
    (∃ e ∈ spriteWrites c s x y, e.1 = c.index px py) ↔
      isInClip c py = true ∧ s.Has x y px py := by
  constructor
  · rintro ⟨e, he, heq⟩
    obtain ⟨j, hj, i, hi, rfl⟩ := mem_spriteWrites.mp he
    rw [i32_row hc hy hj, i32_col hc hx hst hi] at heq
    have hi := (mem_spriteCols hc hx hst).mp hi
    have hj := (mem_spriteRows hc hy).mp hj
    obtain ⟨rfl, rfl⟩ := (hc.index_inj hi.2 hpx).mp heq
    unfold Sprite.Has
    exact ⟨hj.2.2, by omega, by omega⟩
  · rintro ⟨hclip, hpos⟩
    unfold Sprite.Has at hpos
    refine ⟨_, mem_spriteWrites.mpr ⟨py - y, ?_, px - x, ?_, rfl⟩, ?_⟩
    · rw [mem_spriteRows hc hy, show y + (py - y) = py by omega]
      exact ⟨by omega, hpy, hclip⟩
    · rw [mem_spriteCols hc hx hst]
      omega
    · have hwlt := hc.width_lt
      have hhlt := hc.height_lt
      rw [show y + (py - y) = py by omega, show x + (px - x) = px by omega,
        i32_of_small (by omega) (by omega), i32_of_small (by omega) (by omega)]

/-- A pixel of the screen that the sprite has is written once, in a row that is clipped in. -/
theorem writeAll_spriteWrites (hc : c.Proper) (hx : IsInt x) (hy : IsInt y)
    (hst : s.Straight x) {px py : Int} (hpx : 0 ≤ px ∧ px < c.width)
    (hpy : 0 ≤ py ∧ py < c.height) (b : Int → Word) :
    writeAll (spriteWrites c s x y) b (c.index px py) =
      if isInClip c py = true ∧ s.Has x y px py then
        spritePut s (px - x) (py - y) (b (c.index px py))
      else b (c.index px py) := by
  split
  · rename_i h
    obtain ⟨hclip, hpos⟩ := h
    unfold Sprite.Has at hpos
    apply writeAll_of_mem (nodup_spriteWrites hc hx hy hst)
    refine mem_spriteWrites.mpr ⟨py - y, ?_, px - x, ?_, ?_⟩
    · rw [mem_spriteRows hc hy, show y + (py - y) = py by omega]
      exact ⟨by omega, hpy, hclip⟩
    · rw [mem_spriteCols hc hx hst]
      omega
    · have hwlt := hc.width_lt
      have hhlt := hc.height_lt
      rw [show y + (py - y) = py by omega, show x + (px - x) = px by omega,
        i32_of_small (by omega) (by omega), i32_of_small (by omega) (by omega)]
  · rename_i h
    apply writeAll_of_notMem
    intro hm
    obtain ⟨e, he, heq⟩ := List.mem_map.mp hm
    exact h ((any_spriteWrites hc hx hy hst hpx hpy).mp ⟨e, he, heq⟩)

end Writes

end Frog.Compositor
