import Frog.Compositor.Pixels

/-!
# Where a sprite is drawn

`draw_sprite` with a context and a sprite of any size at any position, of type `int_32`.
-/

set_option autoImplicit false

namespace Frog.Compositor

open Prog Painter

/-- A context in the address space: its height, and its stride and size in bytes, are of type
`uint_32`. -/
structure Context.InMemory (c : Context) : Prop extends c.Fits where
  height_range : 0 ≤ c.height ∧ c.height < 4294967296
  stride_lt : c.pitch * 4 < 4294967296
  size_lt : c.size * 4 < 4294967296

/-- Only pixels of the context are written that are in the clip and that the sprite has, and each of
them gets the pixel of the sprite at its place. -/
structure DrawsInside (c : Context) (s : Sprite) (x y : Int) : Prop where
  inside : ∀ j ∈ spriteRows c s y, ∀ i ∈ spriteCols c s x,
    (0 ≤ i32 (x + i) ∧ i32 (x + i) < c.width) ∧ (0 ≤ i32 (y + j) ∧ i32 (y + j) < c.height) ∧
      isInClip c (i32 (y + j)) = true ∧ s.Has x y (i32 (x + i)) (i32 (y + j)) ∧
      (0 ≤ i ∧ i < s.width) ∧ 0 ≤ j ∧ j < s.height
  effect : ∃ d, drawSprite s x y c = .ok ((), d) ∧ ∀ px py, 0 ≤ px ∧ px < c.width →
    0 ≤ py ∧ py < c.height → d.backbuffer (c.index px py) =
      if isInClip c py = true ∧ s.Has x y px py then
        spritePut s (px - x) (py - y) (c.backbuffer (c.index px py))
      else c.backbuffer (c.index px py)

/-- The row `j` of the sprite is drawn. -/
def RowShown (c : Context) (s : Sprite) (y j : Int) : Prop :=
  (0 ≤ j ∧ j < s.height) ∧ 0 ≤ y + j ∧
    (if c.height = 0 then y + s.height < 2147483648
      else y + j < c.height ∧ (c.height ≤ 2147483648 ∨ y + s.height < 2147483648)) ∧
    isInClip c (y + j) = true

/-- Columns of the sprite are drawn where the context has none: it has no width, or an opaque sprite
65536 columns and more to the left starts at the wrong column. -/
def ColStrays (c : Context) (s : Sprite) (x : Int) : Prop :=
  c.width = 0 ∧ 0 < s.width ∧ 0 < x + s.width ∧ x + s.width < 2147483648 ∨
    s.alpha = .opaqued ∧ x ≤ -65536 ∧ -x % 65536 < s.width

/-- Columns of the sprite are in the context. -/
def ColShown (c : Context) (s : Sprite) (x : Int) : Prop :=
  0 < s.width ∧ 0 < x + s.width ∧ x < c.width

def Strays (c : Context) (s : Sprite) (x y : Int) : Prop :=
  (∃ j, RowShown c s y j) ∧ (ColStrays c s x ∨ c.height = 0 ∧ ColShown c s x)

instance (n : Int) : Decidable (IsInt n) := inferInstanceAs (Decidable (_ ∧ _))

variable {c : Context} {s : Sprite} {x y i j : Int}

theorem Context.InMemory.width_lt (h : c.InMemory) : c.width < 1073741824 := by
  have hw := h.width_le
  have hs := h.stride_lt
  omega

theorem Context.InMemory.height_lt (h : c.InMemory) (hw : 0 < c.width) : c.height < 1073741824 := by
  have hle := h.width_le
  have hmul : 1 * c.height ≤ c.pitch * c.height :=
    mul_le_mul_of_nonneg_right (by omega) h.height_range.1
  have hfits := h.fits
  have hs := h.size_lt
  omega

theorem Context.InMemory.proper (h : c.InMemory) (hw : 0 < c.width) (hh : 0 < c.height) : c.Proper :=
  ⟨h.toFits, hw, hh, by have := h.width_lt; omega, by have := h.height_lt hw; omega⟩

/-! ## Rows and columns -/

theorem mem_spriteRows_shown (hc : c.InMemory) (hy : IsInt y) :
    j ∈ spriteRows c s y ↔ RowShown c s y j := by
  have hrange := hc.height_range
  unfold RowShown
  rw [mem_spriteRows_iff hy]
  constructor
  · intro h
    obtain ⟨hj, ⟨h0, hmax, hle⟩, hclip⟩ := h
    exact ⟨hj, h0, (le_farEdge hy s.height_range hrange (by omega) hmax).mp hle, hclip⟩
  · intro h
    obtain ⟨hj, h0, hend, hclip⟩ := h
    have hmax : y + j < 2147483648 := by
      split at hend <;> omega
    exact ⟨hj, ⟨h0, hmax, (le_farEdge hy s.height_range hrange (by omega) hmax).mpr hend⟩, hclip⟩

theorem mem_spriteCols_shown (hc : c.InMemory) (hx : IsInt x) (hst : s.Straight x) :
    i ∈ spriteCols c s x ↔ (0 ≤ i ∧ i < s.width) ∧ 0 ≤ x + i ∧
      if c.width = 0 then x + s.width < 2147483648 else x + i < c.width := by
  have hpos := hc.width_nonneg
  have hlt := hc.width_lt
  have hcols : i ∈ spriteCols c s x ↔ (0 ≤ i ∧ i < s.width) ∧
      0 ≤ x + i ∧ x + i < 2147483648 ∧ x + i ≤ farEdge x s.width c.width := by
    unfold Sprite.Straight at hst
    cases ha : s.alpha with
    | embedded => exact mem_spriteCols_embedded ha hx
    | opaqued =>
      rw [ha] at hst
      exact mem_spriteCols_straight ha hx hst ⟨hpos, by omega⟩
  rw [hcols]
  have hedge : i < s.width → 0 ≤ x + i → x + i < 2147483648 →
      (x + i ≤ farEdge x s.width c.width ↔
        if c.width = 0 then x + s.width < 2147483648 else x + i < c.width) := by
    intro hi h0 hmax
    rw [le_farEdge hx s.width_range ⟨hpos, by omega⟩ (by omega) hmax]
    split <;> omega
  constructor
  · intro h
    obtain ⟨hi, h0, hmax, hle⟩ := h
    exact ⟨hi, h0, (hedge hi.2 h0 hmax).mp hle⟩
  · intro h
    obtain ⟨hi, h0, hend⟩ := h
    have hmax : x + i < 2147483648 := by
      split at hend <;> omega
    exact ⟨hi, h0, hmax, (hedge hi.2 h0 hmax).mpr hend⟩

theorem firstCol_wraps (hx : x ≤ -65536) : firstCol x = -x % 65536 := by
  unfold firstCol u16
  rw [if_pos (by omega), max_eq_right (by omega)]
  omega

/-- The wrong first column of an opaque sprite. -/
theorem firstCol_mem (hc : c.InMemory) (ha : s.alpha = .opaqued) (hx : IsInt x) (hleft : x ≤ -65536)
    (hfirst : -x % 65536 < s.width) :
    firstCol x ∈ spriteCols c s x ∧ i32 (x + firstCol x) < 0 := by
  have hw := s.width_range
  have hpos := hc.width_nonneg
  have hlt := hc.width_lt
  have hx' := hx
  unfold IsInt at hx'
  have hcol : i32 (x + firstCol x) = x + -x % 65536 := by
    rw [firstCol_wraps hleft]
    exact i32_of_small (by omega) (by omega)
  have hedge : x + -x % 65536 ≤ farEdge x s.width c.width := by
    have hend : u32 (i32 (x + s.width)) = x + s.width + 4294967296 := by
      rw [i32_of_small (by omega) (by omega), u32]
      omega
    have hlast : u32 (c.width - 1) = if c.width = 0 then 4294967295 else c.width - 1 := by
      unfold u32
      split <;> omega
    unfold farEdge minU
    rw [hend, hlast]
    split
    · rw [i32_of_small (n := x + s.width) (by omega) (by omega), i32_of_small (by omega) (by omega)]
      omega
    · rw [i32_of_small (by omega) (by omega)]
      split at * <;> omega
  refine ⟨?_, by rw [hcol]; omega⟩
  rw [mem_spriteCols_opaqued ha]
  refine ⟨⟨le_refl _, by rw [firstCol_wraps hleft]; exact hfirst⟩, ?_⟩
  intro k hk hk'
  rw [le_antisymm hk' hk, hcol]
  exact hedge

/-! ## Nothing strays -/

theorem straight_of_right (h : 0 < x + s.width) : s.Straight x := by
  have hw := s.width_range
  unfold Sprite.Straight
  cases s.alpha with
  | embedded => trivial
  | opaqued =>
    change -65536 < x
    omega

/-- The first column right of the left edge is drawn when there is one. -/
theorem exists_col (hc : c.InMemory) (hx : IsInt x) (hw : 0 < s.width) (hright : 0 < x + s.width)
    (hend : if c.width = 0 then x + s.width < 2147483648 else x < c.width) :
    ∃ i, i ∈ spriteCols c s x := by
  have hpos := hc.width_nonneg
  refine ⟨max (-x) 0, (mem_spriteCols_shown hc hx (straight_of_right hright)).mpr ?_⟩
  refine ⟨by omega, by omega, ?_⟩
  split at hend
  · rw [if_pos (by assumption)]
    exact hend
  · rw [if_neg (by assumption)]
    omega

theorem not_inside_of_strays (hc : c.InMemory) (hx : IsInt x) (hy : IsInt y)
    (h : Strays c s x y) : ¬ DrawsInside c s x y := by
  intro hdraws
  obtain ⟨⟨j, hrow⟩, hcol⟩ := h
  have hj := (mem_spriteRows_shown hc hy).mpr hrow
  rcases hcol with (⟨hzero, hw, hright, hend⟩ | ⟨ha, hleft, hfirst⟩) | ⟨hzero, hw, hright, hlt⟩
  · -- No column of the context, but one of the sprite.
    obtain ⟨i, hi⟩ := exists_col hc hx hw hright (by rw [if_pos hzero]; exact hend)
    have hin := (hdraws.inside j hj i hi).1
    omega
  · obtain ⟨hi, hneg⟩ := firstCol_mem hc ha hx hleft hfirst
    have hin := (hdraws.inside j hj _ hi).1
    omega
  · obtain ⟨i, hi⟩ : ∃ i, i ∈ spriteCols c s x := by
      apply exists_col hc hx hw hright
      have hrange := s.width_range
      split <;> omega
    have hin := (hdraws.inside j hj i hi).2.1
    omega

/-- A pixel of the context that the sprite has, in a row that is clipped in, is in a row and a column
that are drawn. -/
theorem shown_of_has (hc : c.InMemory) (hx : IsInt x) (hy : IsInt y) {px py : Int}
    (hpx : 0 ≤ px ∧ px < c.width) (hpy : 0 ≤ py ∧ py < c.height) (hclip : isInClip c py = true)
    (hhas : s.Has x y px py) : py - y ∈ spriteRows c s y ∧ px - x ∈ spriteCols c s x := by
  have hwidth := hc.width_lt
  have hheight := hc.height_lt (by omega)
  unfold Sprite.Has at hhas
  constructor
  · apply (mem_spriteRows_shown hc hy).mpr
    refine ⟨by omega, by omega, ?_, by rw [show y + (py - y) = py by omega]; exact hclip⟩
    rw [if_neg (by omega)]
    omega
  · apply (mem_spriteCols_shown hc hx (straight_of_right (by omega))).mpr
    refine ⟨by omega, by omega, ?_⟩
    rw [if_neg (by omega)]
    omega

/-- A sprite that is drawn nowhere has no pixel to draw. -/
theorem drawsInside_of_nothing (hc : c.InMemory) (hx : IsInt x) (hy : IsInt y)
    (h : ∀ j ∈ spriteRows c s y, ∀ i ∈ spriteCols c s x, False) : DrawsInside c s x y := by
  have hnil : spriteWrites c s x y = [] := by
    apply List.eq_nil_iff_forall_not_mem.mpr
    intro e he
    obtain ⟨j, hj, i, hi, -⟩ := mem_spriteWrites.mp he
    exact h j hj i hi
  refine ⟨fun j hj i hi => (h j hj i hi).elim, c, ?_, ?_⟩
  · change put (spriteWrites c s x y) c = _
    rw [hnil]
    rfl
  · intro px py hpx hpy
    rw [if_neg]
    intro hvis
    obtain ⟨hj, hi⟩ := shown_of_has hc hx hy hpx hpy hvis.1 hvis.2
    exact h _ hj _ hi

theorem drawsInside_of_proper (hc : c.Proper) (hx : IsInt x) (hy : IsInt y) (hst : s.Straight x) :
    DrawsInside c s x y := by
  refine ⟨?_, _, hc.put_eq (spriteWrites_inside hc hx hy hst), ?_⟩
  · intro j hj i hi
    rw [i32_row hc hy hj, i32_col hc hx hst hi]
    have hj := (mem_spriteRows hc hy).mp hj
    have hi := (mem_spriteCols hc hx hst).mp hi
    unfold Sprite.Has
    exact ⟨hi.2, hj.2.1, hj.2.2, ⟨by omega, by omega⟩, hi.1, hj.1⟩
  · intro px py hpx hpy
    exact writeAll_spriteWrites hc hx hy hst hpx hpy c.backbuffer

/-- The sprite is drawn where it should be exactly when no row that is drawn has a stray column, and
no column a stray row. -/
theorem draws_inside_iff (hc : c.InMemory) (hx : IsInt x) (hy : IsInt y) :
    DrawsInside c s x y ↔ ¬ Strays c s x y := by
  constructor
  · intro h hstrays
    exact not_inside_of_strays hc hx hy hstrays h
  · intro h
    by_cases hdrawn : ∃ j ∈ spriteRows c s y, ∃ i, i ∈ spriteCols c s x
    · obtain ⟨j, hj, i, hi⟩ := hdrawn
      have hrow := (mem_spriteRows_shown hc hy).mp hj
      have hcols : ¬ ColStrays c s x := fun hcol => h ⟨⟨j, hrow⟩, .inl hcol⟩
      have hrows : ¬ (c.height = 0 ∧ ColShown c s x) := fun hcol => h ⟨⟨j, hrow⟩, .inr hcol⟩
      have hst : s.Straight x := by
        unfold Sprite.Straight
        cases ha : s.alpha with
        | embedded => trivial
        | opaqued =>
          change -65536 < x
          by_contra hleft
          have hfirst := ((mem_spriteCols_opaqued ha).mp hi).1
          rw [firstCol_wraps (by omega)] at hfirst
          exact hcols (.inr ⟨ha, by omega, by omega⟩)
      obtain ⟨hrange, h0, hend⟩ := (mem_spriteCols_shown hc hx hst).mp hi
      have hwidth : 0 < c.width := by
        by_contra hnone
        have hzero : c.width = 0 := by
          have hpos := hc.width_nonneg
          omega
        rw [if_pos hzero] at hend
        exact hcols (.inl ⟨hzero, by omega, by omega, hend⟩)
      have hheight : 0 < c.height := by
        by_contra hnone
        have hpos := hc.height_range
        rw [if_neg (by omega)] at hend
        exact hrows ⟨by omega, by omega, by omega, by omega⟩
      exact drawsInside_of_proper (hc.proper hwidth hheight) hx hy hst
    · apply drawsInside_of_nothing hc hx hy
      intro j hj i hi
      exact hdrawn ⟨j, hj, i, hi⟩

/-- A context of so many columns and four rows, without clips. -/
def fourRows (width : Int) : Context := ⟨width, 4, width, 4 * width, fun _ => 0, fun _ => 0, none, 0⟩

def square (alpha : Alpha) : Sprite := ⟨2, 2, fun _ => 0xFF112233, alpha, by decide, by decide⟩

theorem fourRows_inMemory {width : Int} (h : 0 ≤ width ∧ width < 1000) : (fourRows width).InMemory :=
  ⟨⟨h.1, le_refl _, by change width * 4 ≤ 4 * width; omega⟩,
    show 0 ≤ (4 : Int) ∧ (4 : Int) < 4294967296 by decide,
    by change width * 4 < _; omega, by change 4 * width * 4 < _; omega⟩

theorem fourRows_shown {width : Int} {alpha : Alpha} : RowShown (fourRows width) (square alpha) 0 0 :=
  ⟨show 0 ≤ (0 : Int) ∧ (0 : Int) < 2 by decide, by decide, show (0 : Int) + 0 < 4 ∧
    ((4 : Int) ≤ 2147483648 ∨ (0 : Int) + 2 < 2147483648) by decide, rfl⟩

theorem draws_inside_corner : DrawsInside (fourRows 4) (square .embedded) 3 (-1) := by
  apply (draws_inside_iff (fourRows_inMemory (by decide)) (by decide) (by decide)).mpr
  intro hstrays
  rcases hstrays.2 with (⟨hzero, -⟩ | ⟨halpha, -⟩) | ⟨hzero, -⟩
  · exact absurd hzero (by decide)
  · cases halpha
  · exact absurd hzero (by decide)

/-- An opaque sprite far to the left, and a context without columns. -/
theorem draws_outside : ¬ DrawsInside (fourRows 4) (square .opaqued) (-65536) 0 ∧
    ¬ DrawsInside (fourRows 0) (square .embedded) 0 0 := by
  constructor
  · apply not_inside_of_strays (fourRows_inMemory (by decide)) (by decide) (by decide)
    exact ⟨⟨0, fourRows_shown⟩, .inl (.inr ⟨rfl, by decide, by decide⟩)⟩
  · apply not_inside_of_strays (fourRows_inMemory (by decide)) (by decide) (by decide)
    exact ⟨⟨0, fourRows_shown⟩, .inl (.inl ⟨rfl, by decide, by decide, by decide⟩)⟩

end Frog.Compositor
