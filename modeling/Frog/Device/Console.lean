import Frog.Compositor.Gfx

/-!
# The console

`console_write` of `core/device/console.c` and the drawing functions it calls. A pixel outside of the
back buffer is a pixel of the memory around it.
-/

namespace Frog.Console

set_option autoImplicit false
open Prog Painter Compositor

abbrev Byte := BitVec 8

/-! ## The cursor -/

structure EnterStack where
  prevLineY : Word
  prevLineX : Word
  deriving DecidableEq

/-- `base_x` and `base_y` with the line ends above. -/
structure Cursor where
  baseX : Word
  baseY : Word
  stackPointer : Word
  lineStack : Nat → EnterStack

abbrev C := Prog Fault Cursor

def margin : Word := 0
def fontSz : Word := 8
def linePixels : Word := 1000

/-- The entries that `console_init` allocates. -/
def lineStackSize : Word := 100

def backspace : Byte := 0x08

def IsEnter (c : Byte) : Prop := c = 0x0D ∨ c = 0x0A

instance (c : Byte) : Decidable (IsEnter c) := inferInstanceAs (Decidable (_ ∨ _))

def goBack : C Unit := do
  let s ← get
  if s.baseX ≤ 0 then
    let top := if s.stackPointer ≠ 0 then s.stackPointer - 1 else s.stackPointer
    check (top < lineStackSize) .outside
    modify fun s =>
      { s with
        baseX := (s.lineStack top.toNat).prevLineX
        baseY := s.baseY - fontSz * 2
        stackPointer := top }
  else
    modify fun s => { s with baseX := s.baseX - fontSz }

def enter : C Unit := do
  let s ← get
  check (s.stackPointer < lineStackSize) .outside
  modify fun s =>
    { baseX := 0
      baseY := s.baseY + 2 * fontSz
      stackPointer := s.stackPointer + 1
      lineStack := Function.update s.lineStack s.stackPointer.toNat ⟨s.baseY, s.baseX⟩ }

def advance : C Unit := do
  let s ← get
  let x := s.baseX + (fontSz + margin)
  if x % linePixels = 0 then
    modify fun s => { s with baseX := 0, baseY := s.baseY + 2 * fontSz }
  else
    modify fun s => { s with baseX := x }

/-- What the first character does to the cursor. -/
def moveCursor (c : Byte) : C Unit :=
  if c = backspace then goBack
  else if IsEnter c then enter
  else advance

/-! ## Drawing -/

/-- The font in memory from `FONT_HANKAKU` on, and what `convert_argb` makes of the font's colour. -/
structure Font where
  hankaku : Int → Byte
  color : Word

def FSK_ROSY_BROWN : Word := 0x00BC8F8F

def paint (ws : List (Int × (Word → Word))) (g : Context) : Context :=
  { g with backbuffer := writeAll ws g.backbuffer }

def pixelAt (g : Context) (x y : Int) (color : Word) : Int × (Word → Word) :=
  (g.index (u16 x) (u16 y), fun _ => color)

/-- The set bits of a character, the last column first. The coordinates are of type `int_16`. -/
def glyph (f : Font) (g : Context) (x y : Int) (c : Byte) : List (Int × (Word → Word)) :=
  (List.range 16).flatMap fun i =>
    ((List.range 8).filter fun bit => (f.hankaku (c.toInt * 16 + (i : Nat))).getLsbD bit).map fun bit =>
      pixelAt g (Int.bmod x 65536 + (7 - (bit : Nat))) (Int.bmod y 65536 + (i : Nat)) f.color

/-- `draw_2d_gfx_string` -/
def drawString (f : Font) (x y : Int) (str : List Byte) (g : Context) : Context :=
  str.zipIdx.foldl (fun g c => paint (glyph f g (i32 (x + 8 * (c.2 : Nat))) y c.1) g) g

/-- The `uint_16` counters of `fill_rect_solid` reach their bounds. -/
def FillEnds (y right bottom : Int) : Prop := bottom < 65536 ∧ (right < 65536 ∨ bottom ≤ u16 y)

instance (y right bottom : Int) : Decidable (FillEnds y right bottom) :=
  inferInstanceAs (Decidable (_ ∧ _))

def fillRect (x y right bottom : Int) (color : Word) (g : Context) : Context :=
  paint ((between (u16 y) bottom).flatMap fun j =>
    (between (u16 x) right).map fun i => pixelAt g i j color) g

/-- `fill_rect_solid` -/
def fillRectSolid (x y right bottom : Int) (color : Word) : G Unit := do
  check (FillEnds y right bottom) .hang
  modify (fillRect x y right bottom color)

def gfxFreeClip (g : Context) : Context := { g with clips := none }

/-! ## The calls -/

structure State where
  cursor : Cursor
  gfx : Context

abbrev M := Prog Fault State

def onCursor (m : C Unit) : M Unit := zoom State.cursor (fun s k => { s with cursor := k }) id m

def onGfx (m : G Unit) : M Unit := zoom State.gfx (fun s g => { s with gfx := g }) id m

/-- The field of a character from the cursor on is filled with the background. -/
def rubOut (x y : Word) : G Unit := do
  let right := (x + fontSz).toInt
  let bottom := (y + fontSz * 2).toInt
  modify (gfxAddClip x.toInt y.toInt right bottom)
  fillRectSolid x.toInt y.toInt right bottom (FSK_ROSY_BROWN ||| 0xff000000)

def writeBack : M Unit := do
  let s ← get
  onGfx (rubOut s.cursor.baseX s.cursor.baseY)
  onCursor goBack

def writeText (f : Font) (str : List Byte) : M Unit := do
  onCursor advance
  let s ← get
  onGfx (modify fun g =>
    let x := s.cursor.baseX.toInt
    let y := s.cursor.baseY.toInt
    drawString f x y str (gfxAddClip x y fontSz.toInt (fontSz * 2).toInt g))

/-- Only the first character is looked at. -/
def writeByFirst (f : Font) (buf : List Byte) (len : Nat) : M Unit :=
  if buf.headD 0 = backspace then writeBack
  else if IsEnter (buf.headD 0) then onCursor enter
  else writeText f (buf.take len)

/-- The rows that were drawn go to the screen. -/
def showDrawn (g : Context) : Context := gfxFreeClip (gfxClearClip (flip g))

def consoleWrite (f : Font) (buf : List Byte) (len : Nat) : M Unit := do
  writeByFirst f buf len
  onGfx (modify showDrawn)

/-- The bytes of `tmp` in `sys_write`. -/
def stagingSize : Nat := 1024

/-- `sys_write` to the standard output, when that is not a pipe. -/
def sysWrite (f : Font) (buf : List Byte) : M Nat := do
  check (buf.length ≤ stagingSize) .outside
  consoleWrite f (buf ++ List.replicate (stagingSize - buf.length) 0) buf.length
  pure buf.length

variable {s t : State} {k : Cursor} {f : Font} {buf : List Byte} {len : Nat}

theorem onCursor_ok {m : C Unit} {u : Unit} (h : onCursor m s = .ok (u, t)) :
    m s.cursor = .ok ((), t.cursor) ∧ t.gfx = s.gfx := by
  unfold onCursor zoom at h
  split at h
  · rename_i a k hm
    obtain ⟨-, rfl⟩ := Prod.mk.inj (Except.ok.inj h)
    exact ⟨hm, rfl⟩
  · cases h

theorem onGfx_ok {m : G Unit} {u : Unit} (h : onGfx m s = .ok (u, t)) :
    m s.gfx = .ok ((), t.gfx) ∧ t.cursor = s.cursor := by
  unfold onGfx zoom at h
  split at h
  · rename_i a g hm
    obtain ⟨-, rfl⟩ := Prod.mk.inj (Except.ok.inj h)
    exact ⟨hm, rfl⟩
  · cases h

theorem onCursor_of_ok {m : C Unit} (h : m s.cursor = .ok ((), k)) :
    onCursor m s = .ok ((), { s with cursor := k }) := by
  unfold onCursor zoom
  rw [h]

theorem onGfx_of_ok {m : G Unit} {g : Context} (h : m s.gfx = .ok ((), g)) :
    onGfx m s = .ok ((), { s with gfx := g }) := by
  unfold onGfx zoom
  rw [h]

theorem writeText_cursor (h : writeText f buf s = .ok ((), t)) :
    advance s.cursor = .ok ((), t.cursor) := by
  obtain ⟨u, s₁, hcur, hrest⟩ := bind_eq_ok.mp h
  rw [(onGfx_ok hrest).2]
  exact (onCursor_ok hcur).1

theorem writeBack_cursor (h : writeBack s = .ok ((), t)) : goBack s.cursor = .ok ((), t.cursor) := by
  change (onGfx (rubOut s.cursor.baseX s.cursor.baseY) >>= fun _ => onCursor goBack) s = _ at h
  obtain ⟨u, s₁, hrub, hcur⟩ := bind_eq_ok.mp h
  rw [← (onGfx_ok hrub).2]
  exact (onCursor_ok hcur).1

/-- However many characters are drawn, the cursor moves for the first. -/
theorem consoleWrite_cursor (h : consoleWrite f buf len s = .ok ((), t)) :
    moveCursor (buf.headD 0) s.cursor = .ok ((), t.cursor) := by
  obtain ⟨u, s₁, hwrite, hrest⟩ := bind_eq_ok.mp h
  rw [(onGfx_ok hrest).2]
  unfold writeByFirst at hwrite
  unfold moveCursor
  split at hwrite
  · rename_i hback
    rw [if_pos hback]
    exact writeBack_cursor hwrite
  · rename_i hback
    rw [if_neg hback]
    split at hwrite
    · rename_i henter
      rw [if_pos henter]
      exact (onCursor_ok hwrite).1
    · rename_i henter
      rw [if_neg henter]
      exact writeText_cursor hwrite

end Frog.Console
