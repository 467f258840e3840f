import Frog.Lib.Painter
import Frog.Lib.Prog
import Mathlib.Data.BitVec
import Mathlib.Algebra.Order.Ring.Int
import Mathlib.Tactic.Linarith

/-!
# Drawing

`2d_graphics.c` for 32-bit colours. A buffer is indexed by pixels, a row of the screen starts every
`pitch` pixels, and a drawing function is the list of its writes. What a write outside of the buffer
hits is not modelled, it stops the program.
-/

set_option autoImplicit false

namespace Frog.Compositor

open Prog Painter

abbrev Word := BitVec 32

/-- A loop that never ends, a write outside of a buffer, a window that is `NULL` or freed, or a
fault of the hash map. -/
inductive Fault where
  | hang | outside | window | map
  deriving DecidableEq

/-! ## Machine integers -/

/-- The value of an `int`. -/
def i32 (n : Int) : Int := Int.bmod n 4294967296

def u32 (n : Int) : Int := n % 4294967296

def u16 (n : Int) : Int := n % 65536

/-- `MIN` of an `int` and a `uint_32`: the comparison is unsigned. -/
def minU (a b : Int) : Int := if u32 a < u32 b then a else b

theorem i32_of_small {n : Int} (h : -2147483648 ≤ n) (h' : n < 2147483648) : i32 n = n := by
  rw [i32, Int.bmod_def]
  omega

/-- The values of an `int`. -/
def IsInt (n : Int) : Prop := -2147483648 ≤ n ∧ n < 2147483648

theorem isInt_i32 (n : Int) : IsInt (i32 n) := by
  rw [IsInt, i32, Int.bmod_def]
  omega

theorem isInt_toInt (w : Word) : IsInt w.toInt := by
  have h := BitVec.toInt_lt (x := w)
  have h' := BitVec.le_toInt w
  rw [IsInt]
  omega

theorem u32_of_small {n : Int} (h : 0 ≤ n) (h' : n < 4294967296) : u32 n = n :=
  Int.emod_eq_of_lt h h'

theorem u16_range (n : Int) : 0 ≤ u16 n ∧ u16 n < 65536 := by
  rw [u16]
  omega

/-- The numbers `lo, …, hi - 1`. -/
def between (lo hi : Int) : List Int := (List.range (hi - lo).toNat).map fun i : Nat => lo + (i : Int)

section Between
variable {lo hi i : Int}

theorem mem_between : i ∈ between lo hi ↔ lo ≤ i ∧ i < hi := by
  rw [between, List.mem_map]
  constructor
  · rintro ⟨n, hn, rfl⟩
    rw [List.mem_range] at hn
    omega
  · rintro ⟨hlo, hhi⟩
    refine ⟨(i - lo).toNat, ?_, ?_⟩
    · rw [List.mem_range]
      omega
    · omega

theorem nodup_between : (between lo hi).Nodup := by
  refine List.nodup_range.map fun i j h => ?_
  have h : lo + (i : Int) = lo + j := h
  omega

theorem sorted_between : (between lo hi).Pairwise (· < ·) := by
  rw [between, List.pairwise_map]
  refine List.pairwise_lt_range.imp ?_
  intro i j h
  omega

end Between

/-- On an increasing list the first failure ends the list once and for all. -/
theorem mem_takeWhile_sorted {l : List Int} (h : l.Pairwise (· < ·)) (p : Int → Bool) (i : Int) :
    i ∈ l.takeWhile p ↔ i ∈ l ∧ ∀ k ∈ l, k ≤ i → p k = true := by
  induction l with
  | nil => simp
  | cons j l ih =>
    rw [List.pairwise_cons] at h
    rw [List.takeWhile_cons]
    by_cases hj : p j = true
    · rw [if_pos hj, List.mem_cons, List.mem_cons, ih h.2, List.forall_mem_cons]
      constructor
      · rintro (rfl | ⟨hi, hall⟩)
        · refine ⟨.inl rfl, fun _ => hj, fun k hk hle => ?_⟩
          have hlt := h.1 k hk
          omega
        · exact ⟨.inr hi, fun _ => hj, hall⟩
      · rintro ⟨rfl | hi, -, hall⟩
        · exact .inl rfl
        · exact .inr ⟨hi, hall⟩
    · rw [if_neg hj]
      constructor
      · intro hi
        cases hi
      · rintro ⟨hi, hall⟩
        have hle : j ≤ i := by
          rcases List.mem_cons.mp hi with rfl | hi
          · exact le_refl _
          · exact le_of_lt (h.1 i hi)
        exact absurd (hall j List.mem_cons_self hle) hj

/-! ## Colours -/

def FSK_RED : Word := 0x00FF0000
def FSK_DARK_CYAN : Word := 0x00008B8B
def FSK_CORN_SILK : Word := 0x00FFF8DC
def FSK_WHITE : Word := 0x00FFFFFF

def channel (color : Word) (shift : Nat) : Word := (color >>> shift) &&& 0xFF

def rgba (r g b a : Word) : Word := (a <<< 24) ||| (r <<< 16) ||| (g <<< 8) ||| b

/-- One channel of the blended colour, a `uint_8`; `t` is the rest of the alpha. -/
def blendChannel (bottom top t : Word) (shift : Nat) : Word :=
  (channel top shift + (((channel bottom shift * t + 0x80) * 0x101) >>> 16)) &&& 0xFF

def alphaBlendRgba (bottom top : Word) : Word :=
  if channel bottom 24 = 0 then top
  else if channel top 24 = 255 then top
  else if channel top 24 = 0 then bottom
  else
    let t := 0xFF ^^^ channel top 24
    rgba (blendChannel bottom top t 16) (blendChannel bottom top t 8) (blendChannel bottom top t 0)
      (blendChannel bottom top t 24)

/-! ## The context -/

/-- The modes that a sprite is given; with another one `draw_sprite` draws nothing. -/
inductive Alpha where
  | opaqued | embedded

/-- The sizes are of type `uint_16`. -/
structure Sprite where
  width : Int
  height : Int
  bitmap : Int → Word
  alpha : Alpha
  width_range : 0 ≤ width ∧ width < 65536
  height_range : 0 ≤ height ∧ height < 65536

/-- `SPRITE(sprite, x, y)` -/
def Sprite.pixel (s : Sprite) (x y : Int) : Word := s.bitmap (s.width * y + x)

structure Context where
  width : Int
  height : Int
  pitch : Int
  size : Int
  buffer : Int → Word
  backbuffer : Int → Word
  clips : Option (Int → Bool)
  clipsSize : Int

/-- `GFX(ctx, x, y)` -/
def Context.index (c : Context) (x y : Int) : Int := c.pitch * y + x

abbrev G := Prog Fault Context

def isInClip (c : Context) (y : Int) : Bool :=
  match c.clips with
  | none => true
  | some row => if y < 0 ∨ c.clipsSize ≤ y then true else row y

/-- The clips are allocated by the first call. -/
def gfxAddClip (_x y _w h : Int) (c : Context) : Context :=
  let row := c.clips.getD fun _ => false
  let size := if c.clips.isSome then c.clipsSize else c.height
  let ws := (between (max y 0) (min (i32 (y + h)) size)).map fun i => (i, fun _ => true)
  { c with clips := some (writeAll ws row), clipsSize := size }

def gfxClearClip (c : Context) : Context := { c with clips := c.clips.map fun _ _ => false }

/-- Copy the pixels at some indices to the screen. -/
def copyOut (is : List Int) (c : Context) : Context :=
  { c with buffer := writeAll (is.map fun i => (i, fun _ => c.backbuffer i)) c.buffer }

def flip (c : Context) : Context :=
  match c.clips with
  | none => copyOut (between 0 c.size) c
  | some _ =>
    copyOut (((between 0 c.height).filter (isInClip c)).flatMap fun y =>
      (between 0 c.width).map fun x => c.index x y) c

/-- The writes of a drawing function, one after the other. -/
def put : List (Int × (Word → Word)) → G Unit
  | [] => pure ()
  | w :: ws => do
    let c ← get
    check (0 ≤ w.1 ∧ w.1 < c.size) .outside
    modify fun c => { c with backbuffer := write c.backbuffer w }
    put ws

def drawPixel (x y : Int) (color : Word) : G Unit := do
  let c ← get
  put [(c.index x y, fun _ => color)]

/-- A rectangle of one colour. -/
def solid (c : Context) (x y w h : Int) (color : Word) : List (Int × (Word → Word)) :=
  (between y (y + h)).flatMap fun j =>
    (between x (x + w)).map fun i => (c.index i j, fun _ => color)

def drawRectSolid (x y w h : Int) (color : Word) : G Unit := do
  let c ← get
  check (x + w < 65536 ∧ y + h < 65536) .hang
  put (solid c x y w h color)

/-- A `uint_16` counter never reaches a bound from 65536 on. -/
def drawFill (color : Word) : G Unit := do
  let c ← get
  check (c.height < 65536 ∧ (c.width < 65536 ∨ c.height ≤ 0)) .hang
  put (solid c 0 0 c.width c.height color)

/-- `_right` and `_bottom` of `draw_sprite`, of type `int_32`. -/
def farEdge (pos size bound : Int) : Int := i32 (minU (i32 (pos + size)) (bound - 1))

/-- The rows of a sprite that are on the screen and clipped in. -/
def spriteRows (c : Context) (s : Sprite) (y : Int) : List Int :=
  (((between 0 s.height).filter fun j => decide (max y 0 ≤ i32 (y + j))).takeWhile
    fun j => decide (i32 (y + j) ≤ farEdge y s.height c.height)).filter
    fun j => isInClip c (i32 (y + j))

/-- The columns of a sprite that are drawn; the first one of an opaque sprite is a `uint_16`. -/
def spriteCols (c : Context) (s : Sprite) (x : Int) : List Int :=
  let right := farEdge x s.width c.width
  match s.alpha with
  | .embedded =>
    (between 0 s.width).filter fun i => decide (max x 0 ≤ i32 (x + i) ∧ i32 (x + i) ≤ right)
  | .opaqued =>
    (between (if x < max x 0 then u16 (max x 0 - x) else 0) s.width).takeWhile
      fun i => decide (i32 (x + i) ≤ right)

def spritePut (s : Sprite) (i j : Int) (old : Word) : Word :=
  match s.alpha with
  | .embedded => alphaBlendRgba old (s.pixel i j)
  | .opaqued => s.pixel i j ||| 0xFF000000

def spriteWrites (c : Context) (s : Sprite) (x y : Int) : List (Int × (Word → Word)) :=
  (spriteRows c s y).flatMap fun j =>
    (spriteCols c s x).map fun i => (c.index (i32 (x + i)) (i32 (y + j)), spritePut s i j)

def drawSprite (s : Sprite) (x y : Int) : G Unit := do
  let c ← get
  put (spriteWrites c s x y)

/-! ## Sizes -/

/-- The same screen, maybe with another picture. -/
structure Context.Same (c d : Context) : Prop where
  width : d.width = c.width
  height : d.height = c.height
  pitch : d.pitch = c.pitch
  size : d.size = c.size

section Same
variable {c d e : Context}

theorem Context.Same.refl (c : Context) : c.Same c := ⟨rfl, rfl, rfl, rfl⟩

theorem Context.Same.trans (h : c.Same d) (h' : d.Same e) : c.Same e :=
  ⟨h'.width.trans h.width, h'.height.trans h.height, h'.pitch.trans h.pitch,
    h'.size.trans h.size⟩

theorem same_setBackbuffer (b : Int → Word) : c.Same { c with backbuffer := b } :=
  ⟨rfl, rfl, rfl, rfl⟩

theorem same_flip : c.Same (flip c) := by
  unfold flip
  split <;> exact ⟨rfl, rfl, rfl, rfl⟩

end Same

/-! ## Pixels -/

/-- The rows of the screen are in the buffer and do not overlap. -/
structure Context.Fits (c : Context) : Prop where
  width_nonneg : 0 ≤ c.width
  width_le : c.width ≤ c.pitch
  fits : c.pitch * c.height ≤ c.size

section Pixels
variable {c : Context} {x y i j : Int}

theorem Context.Fits.setBackbuffer (h : c.Fits) (b : Int → Word) :
    Context.Fits { c with backbuffer := b } := ⟨h.width_nonneg, h.width_le, h.fits⟩

theorem Context.Fits.index_range (h : c.Fits) (hx : 0 ≤ x ∧ x < c.width)
    (hy : 0 ≤ y ∧ y < c.height) : 0 ≤ c.index x y ∧ c.index x y < c.size := by
  have hp : 0 ≤ c.pitch := h.width_nonneg.trans h.width_le
  have hlow := mul_nonneg hp hy.1
  have hrow : c.pitch * (y + 1) ≤ c.pitch * c.height :=
    mul_le_mul_of_nonneg_left (by omega) hp
  have hle := h.width_le
  have hfits := h.fits
  rw [mul_add, mul_one] at hrow
  rw [Context.index]
  omega

theorem Context.Fits.index_inj (h : c.Fits) (hx : 0 ≤ x ∧ x < c.width)
    (hi : 0 ≤ i ∧ i < c.width) : c.index x y = c.index i j ↔ x = i ∧ y = j := by
  have hle := h.width_le
  have hp : 0 < c.pitch := by omega
  constructor
  · intro he
    rw [Context.index, Context.index] at he
    have hy : y = j := by
      have h1 := Int.add_mul_ediv_left x y (by omega : c.pitch ≠ 0)
      have h2 := Int.add_mul_ediv_left i j (by omega : c.pitch ≠ 0)
      rw [Int.ediv_eq_zero_of_lt hx.1 (by omega)] at h1
      rw [Int.ediv_eq_zero_of_lt hi.1 (by omega)] at h2
      rw [add_comm, he, add_comm] at h1
      omega
    subst hy
    exact ⟨by omega, rfl⟩
  · rintro ⟨rfl, rfl⟩
    rfl

theorem put_eq {ws : List (Int × (Word → Word))} (h : ∀ w ∈ ws, 0 ≤ w.1 ∧ w.1 < c.size) :
    put ws c = .ok ((), { c with backbuffer := writeAll ws c.backbuffer }) := by
  induction ws generalizing c with
  | nil => rfl
  | cons w ws ih =>
    have hw := h w List.mem_cons_self
    have hrest := ih (c := { c with backbuffer := write c.backbuffer w }) fun v hv =>
      h v (List.mem_cons_of_mem _ hv)
    apply run_eq_of_wp
    rw [put, wp_bind, wp_get, wp_bind, wp_check]
    refine ⟨fun _ => ?_, fun hn => absurd hw hn⟩
    rw [wp_bind, wp_modify, wp_of_ok hrest]
    exact ⟨rfl, rfl⟩

/-- A write to a pixel of the screen. -/
def Context.Inside (c : Context) (e : Int × (Word → Word)) : Prop :=
  ∃ i j, (0 ≤ i ∧ i < c.width) ∧ (0 ≤ j ∧ j < c.height) ∧ e.1 = c.index i j

theorem Context.Fits.put_eq (h : c.Fits) {ws : List (Int × (Word → Word))}
    (hws : ∀ e ∈ ws, c.Inside e) :
    put ws c = .ok ((), { c with backbuffer := writeAll ws c.backbuffer }) := by
  apply Compositor.put_eq
  intro e he
  obtain ⟨i, j, hi, hj, heq⟩ := hws e he
  rw [heq]
  exact h.index_range hi hj

theorem Context.Fits.wp_put {E : Fault → Prop} (h : c.Fits) {ws : List (Int × (Word → Word))}
    (hws : ∀ e ∈ ws, c.Inside e) :
    wp E (put ws) (fun _ t => ∃ b, t = { c with backbuffer := b }) c :=
  (wp_of_ok (h.put_eq hws)).mpr ⟨_, rfl⟩

theorem mem_solid {w h : Int} {color : Word} {e : Int × (Word → Word)}
    (he : e ∈ solid c x y w h color) :
    ∃ i j, (x ≤ i ∧ i < x + w) ∧ (y ≤ j ∧ j < y + h) ∧ e.1 = c.index i j := by
  obtain ⟨j, hj, he⟩ := List.mem_flatMap.mp he
  obtain ⟨i, hi, rfl⟩ := List.mem_map.mp he
  exact ⟨i, j, mem_between.mp hi, mem_between.mp hj, rfl⟩

end Pixels

end Frog.Compositor
