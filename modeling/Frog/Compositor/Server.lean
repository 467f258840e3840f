import Frog.Compositor.Gfx
import Frog.Structs.HashMap

/-!
# The compositor

`compositor.c`. A window is named by its address; the two window lists are sequences of addresses,
and `heap` has the windows that are not freed. The addresses `malloc` returns for a window and for
an entry of the hash map come with the message; every other allocation succeeds. The keyboard, the
messages that change nothing and the resizing of windows, which nothing starts, are left out.
-/

set_option autoImplicit false

namespace Frog.Compositor

open Prog Painter HashMap

inductive MouseState where
  | normal | moving | dragging

inductive MouseEvent where
  | click | drag | raise | move

def MOUSE_OFFSET_X : Int := 24
def MOUSE_OFFSET_Y : Int := 23
def MOUSE_WIDTH : Int := 64
def MOUSE_HEIGHT : Int := 64

def POUDLAND_MOUSE_LEFT_CLICK : Word := 1

structure Window where
  wid : Word
  x : Int
  y : Int
  width : Int
  height : Int
  owner : Word
  opacity : Int
  hidden : Bool
  minimized : Bool
  buffer : Int → Word

structure DamageRect where
  x : Int
  y : Int
  width : Int
  height : Int

/-- What the server sends. -/
inductive Packet where
  | windowInit (wid posX posY width height color : Word)
  | mouseEvent (wid : Word) (x y : Int) (event : MouseEvent) (buttons : Word)

structure Globals where
  width : Int
  height : Int
  ctx : Context
  mouseX : Int
  mouseY : Int
  lastMouseX : Int
  lastMouseY : Int
  windows : List Word
  midZs : List Word
  widsToWindows : Hashmap
  bottomZ : Word
  topZ : Word
  focusedWindow : Word
  mouseWindow : Word
  updateList : List DamageRect
  mouseState : MouseState
  mouseSprite : Sprite
  winXOffset : Int
  winYOffset : Int
  winIdCount : Word
  heap : Word → Option Window
  /-- The packets sent, each with its receiver. -/
  sent : List (Word × Packet)
  /-- How often the hash map was changed; no chain is longer. -/
  changes : Nat

abbrev M := Prog Fault Globals

/-! ## Access -/

/-- Dereference a window. -/
def window (p : Word) : M Window := do
  check (p ≠ NULL) .window
  let s ← get
  need (s.heap p) .window

def setWindow (p : Word) (w : Option Window) : M Unit :=
  modify fun s => { s with heap := Function.update s.heap p w }

def onGfx (m : G Unit) : M Unit := fun s =>
  match m s.ctx with
  | .ok (u, c) => .ok (u, { s with ctx := c })
  | .error f => .error f

def onMap {α : Type} (m : Nat → HashMap.M α) : M α := fun s =>
  match m (s.changes + 1) s.widsToWindows with
  | .ok (a, t) => .ok (a, { s with widsToWindows := t })
  | .error _ => .error .map

def changed : M Unit := modify fun s => { s with changes := s.changes + 1 }

/-! ## Damage -/

def markWindowRelative (p : Word) (x y width height : Int) : M Unit := do
  let w ← window p
  if w.hidden || w.minimized then pure ()
  else
    modify fun s => { s with updateList := s.updateList ++
      [⟨i32 (w.x + x), i32 (w.y + y), u32 width, u32 height⟩] }

def markWindow (p : Word) : M Unit := do
  let w ← window p
  markWindowRelative p 0 0 w.width w.height

/-! ## Creating and closing -/

def nextWid : M Word := do
  let s ← get
  modify fun s => { s with winIdCount := s.winIdCount + 1 }
  pure s.winIdCount

def serverWindowCreate (win : Word) (entry : Option Addr) (width height : Int) (owner : Word) :
    M Unit := do
  check (win ≠ NULL) .window
  let wid ← nextWid
  modify fun s => { s with windows := s.windows ++ [win], midZs := s.midZs ++ [win] }
  let _ ← onMap fun fuel => hashmapSet fuel entry wid win
  changed
  setWindow win (some ⟨wid, 0, 0, width, height, owner, 255, true, false, fun _ => 0⟩)

/-- The context of a window; its buffer has `width * height * 4` bytes in 32 bits. -/
def initGfxPoudlandSwindow (w : Window) : Context where
  width := u32 w.width
  height := u32 w.height
  pitch := u32 w.width
  size := u32 (w.width * w.height * 4) / 4
  buffer := w.buffer
  backbuffer := w.buffer
  clips := none
  clipsSize := 0

/-- Draw into the buffer of a window. -/
def drawWindow (p : Word) (m : G Unit) : M Unit := do
  let w ← window p
  match m (initGfxPoudlandSwindow w) with
  | .ok (_, c) => setWindow p (some { w with buffer := c.backbuffer })
  | .error f => stop f

def quickCreateWindow (win : Word) (entry : Option Addr) (x y width height : Int) (color : Word)
    (owner : Word) : M Unit := do
  serverWindowCreate win entry width height owner
  let w ← window win
  setWindow win (some { w with hidden := false, x := x, y := y })
  drawWindow win (drawFill color)
  markWindow win
  modify fun s => { s with bottomZ := win }

def serverWindowClose (wid : Word) : M Unit := do
  let p ← onMap fun fuel => hashmapGet fuel wid
  if p = NULL then pure ()
  else
    modify fun s => { s with
      focusedWindow := if p = s.focusedWindow then NULL else s.focusedWindow }
    markWindow p
    modify fun s => { s with windows := s.windows.erase p, midZs := s.midZs.erase p }
    let w ← window p
    let _ ← onMap fun fuel => hashmapRemove fuel w.wid
    changed
    setWindow p none

/-! ## Painting -/

def windowSprite (w : Window) : Sprite where
  width := u16 w.width
  height := u16 w.height
  bitmap := w.buffer
  alpha := .opaqued
  width_range := u16_range _
  height_range := u16_range _

/-- `draw_sprite_alpha` draws nothing. -/
def poudlandBlitWindow (p : Word) : M Unit := do
  let w ← window p
  if w.hidden || w.minimized then pure ()
  else if w.opacity ≠ 255 then pure ()
  else onGfx (drawSprite (windowSprite w) w.x w.y)

def blitEach : List Word → M Unit
  | [] => pure ()
  | p :: ps => do
    poudlandBlitWindow p
    blitEach ps

/-- Without a bottom window there is the plain background. -/
def blitBottom : M Unit := do
  let s ← get
  if s.bottomZ = NULL then onGfx (drawFill FSK_DARK_CYAN) else poudlandBlitWindow s.bottomZ

def blitTop : M Unit := do
  let s ← get
  if s.topZ = NULL then pure () else poudlandBlitWindow s.topZ

def poudlandBlitWindows : M Unit := do
  let s ← get
  blitBottom
  blitEach s.midZs
  blitTop

/-- The cursor has its sprite in every state of the mouse. -/
def drawMouse : M Unit := do
  let s ← get
  onGfx (drawSprite s.mouseSprite s.mouseX s.mouseY)

/-- The rows that the next frame repaints. -/
def clipDamage (s : Globals) : Context :=
  let c := gfxClearClip s.ctx
  let c :=
    if s.lastMouseX ≠ s.mouseX ∨ s.lastMouseY ≠ s.mouseY then
      gfxAddClip s.mouseX s.mouseY MOUSE_WIDTH MOUSE_HEIGHT
        (gfxAddClip s.lastMouseX s.lastMouseY MOUSE_WIDTH MOUSE_HEIGHT c)
    else c
  s.updateList.foldl (fun c r => gfxAddClip r.x r.y (i32 r.width) (i32 r.height) c) c

def redrawWindows : M Unit := do
  modify fun s => { s with
    ctx := clipDamage s, lastMouseX := s.mouseX, lastMouseY := s.mouseY, updateList := [] }
  poudlandBlitWindows
  drawMouse
  modify fun s => { s with ctx := flip s.ctx }

/-! ## Hit testing and focus -/

def inWindow (x y width height : Int) (px py : Int) : Bool :=
  let xMax := i32 (x + width)
  let yMax := i32 (y + height)
  if (px > xMax ∨ px < x) ∨ py > yMax ∨ py < y then false else true

def isInMidSz (px py : Int) (w : Window) : Bool :=
  inWindow w.x w.y (u32 w.width) (u32 w.height) px py

/-- The first window of a list that passes a test. -/
def listWalker (test : Window → Bool) : List Word → M Word
  | [] => pure NULL
  | p :: ps => do
    let w ← window p
    if test w then pure p else listWalker test ps

def windowTopOf (x y : Int) : M Word := do
  let s ← get
  if x > s.width ∨ y > s.height then pure NULL
  else
    let focused ← listWalker (isInMidSz (i32 x) (i32 y))
      (if s.focusedWindow = NULL then [] else [s.focusedWindow])
    if focused = NULL then listWalker (isInMidSz (i32 x) (i32 y)) s.midZs.reverse
    else pure focused

def windowMove (p : Word) (x y : Int) : M Unit := do
  markWindow p
  let w ← window p
  setWindow p (some { w with x := x, y := y })
  markWindow p

def setFocusWindow (p : Word) : M Unit := do
  let w ← window p
  if w.wid ≤ 1 then pure ()
  else
    modify fun s => { s with
      focusedWindow := p, topZ := p, midZs := s.midZs.erase p ++ [p] }
    markWindow p

/-! ## The mouse -/

def sendMouseEventMassage (p : Word) (x y : Int) (event : MouseEvent) (buttons : Word) :
    M Unit := do
  let w ← window p
  modify fun s => { s with sent := s.sent ++ [(w.owner, .mouseEvent w.wid x y event buttons)] }

/-- A coordinate of the mouse and of its hotspot, kept on a screen of `extent` pixels. -/
def clamp (mouse offset extent : Int) : Int × Int :=
  if mouse < -offset then (-offset, 0)
  else if u32 (mouse + offset) ≥ extent then (i32 (extent - offset - 1), i32 (extent - 1))
  else (mouse, i32 (mouse + offset))

def Globals.clampX (s : Globals) (dx : Int) : Int × Int :=
  clamp (i32 (s.mouseX + dx)) MOUSE_OFFSET_X s.width

def Globals.clampY (s : Globals) (dy : Int) : Int × Int :=
  clamp (i32 (s.mouseY - dy)) MOUSE_OFFSET_Y s.height

/-- A press of the left button takes the window under the mouse. -/
def focusIf (left : Bool) (p : Word) : M Unit :=
  if left && p ≠ NULL then setFocusWindow p else pure ()

def grab (p : Word) (x y : Int) : M Unit :=
  if p = NULL then pure ()
  else do
    setFocusWindow p
    let w ← window p
    modify fun s => { s with
      mouseWindow := p, winXOffset := u32 (x - w.x), winYOffset := u32 (y - w.y) }

def dragTo (p : Word) (x y : Int) (buttons : Word) : M Unit := do
  let s ← get
  let g ← window s.mouseWindow
  if g.wid > 1 then
    windowMove s.mouseWindow (i32 (x - s.winXOffset)) (i32 (y - s.winYOffset))
    sendMouseEventMassage p (i32 (x - s.winXOffset)) (i32 (y - s.winYOffset)) .drag buttons
  else pure ()

def setMouseState (m : MouseState) : M Unit := modify fun s => { s with mouseState := m }

def isLeft (buttons : Word) : Bool := buttons &&& POUDLAND_MOUSE_LEFT_CLICK ≠ 0

/-- The mouse at `(x, y)`; `isMove` tells whether it has moved. -/
def mouseAction (x y : Int) (isMove : Bool) (buttons : Word) : M Unit := do
  let s ← get
  match s.mouseState with
  | .normal =>
    if buttons = 0 && isMove then setMouseState .moving
    else if isLeft buttons && isMove then
      let p ← windowTopOf (u32 x) (u32 y)
      setMouseState .dragging
      grab p x y
    else
      let p ← windowTopOf (u32 x) (u32 y)
      focusIf (isLeft buttons) p
      sendMouseEventMassage p x y .click buttons
  | .moving =>
    let p ← windowTopOf (u32 x) (u32 y)
    if buttons ≠ 0 then
      focusIf (isLeft buttons) p
      setMouseState .normal
      sendMouseEventMassage p x y .click buttons
    else sendMouseEventMassage p x y .move buttons
  | .dragging =>
    let p ← windowTopOf (u32 x) (u32 y)
    if isLeft buttons then dragTo p x y buttons
    else
      setMouseState .normal
      sendMouseEventMassage p x y .raise buttons

/-- The hotspot is not where the last frame had it. -/
def Globals.isMove (s : Globals) (dx dy : Int) : Bool :=
  (s.clampX dx).2 ≠ i32 (s.lastMouseX + MOUSE_OFFSET_X) ∨
    (s.clampY dy).2 ≠ i32 (s.lastMouseY + MOUSE_OFFSET_Y)

def mouseHandler (dx dy : Int) (buttons : Word) : M Unit := do
  let s ← get
  modify fun s => { s with mouseX := (s.clampX dx).1, mouseY := (s.clampY dy).1 }
  mouseAction (s.clampX dx).2 (s.clampY dy).2 (s.isMove dx dy) buttons

/-! ## The main loop -/

inductive Event where
  | windowNew (posX posY width height color source : Word) (win : Word) (entry : Option Addr)
  | windowMove (winId x y : Word)
  | windowClose (wid : Word)
  | mouse (xDifference yDifference : Int) (buttons : Word)
  | redraw

def handle : Event → M Unit
  | .windowNew posX posY width height color source win entry => do
    quickCreateWindow win entry posX.toInt posY.toInt width.toInt height.toInt color source
    let w ← window win
    modify fun s => { s with
      sent := s.sent ++ [(source, .windowInit w.wid posX posY width height color)] }
  | .windowMove winId x y => do
    let s ← get
    if (x.toNat : Int) > s.width ∨ (y.toNat : Int) > s.height then pure ()
    else
      let p ← onMap fun fuel => hashmapGet fuel winId
      if p = NULL then pure () else windowMove p x.toInt y.toInt
  | .windowClose wid => do
    let b ← onMap fun fuel => hashmapHas fuel wid
    if b then serverWindowClose wid else pure ()
  | .mouse dx dy buttons => mouseHandler dx dy buttons
  | .redraw => redrawWindows

/-- `malloc` returns `NULL` or a block that is not in use. -/
def Event.Fresh (s : Globals) : Event → Prop
  | .windowNew _ _ _ _ _ _ win entry =>
    (win = NULL ∨ s.heap win = none) ∧ ∀ a, entry = some a → s.widsToWindows.heap a = none
  | _ => True

def Step (s : Globals) (e : Event) (t : Globals) : Prop := e.Fresh s ∧ handle e s = .ok ((), t)

/-! ## The start -/

/-- A frame buffer with 32-bit colours that is large enough for the test picture of `main`. -/
structure Screen where
  width : Int
  height : Int
  pitch : Int
  width_ge : 30 ≤ width
  height_ge : 30 ≤ height
  width_lt : width < 65536
  height_lt : height < 65536
  width_le : width ≤ pitch
  fits : pitch * height * 4 < 4294967296

/-- The state of `main` before its first window. -/
def Screen.initial (v : Screen) (buffer backbuffer : Int → Word) (cursor : Sprite) : Globals where
  width := v.width
  height := v.height
  ctx := ⟨v.width, v.height, v.pitch, v.pitch * v.height, buffer, backbuffer, none, 0⟩
  mouseX := 0
  mouseY := 0
  lastMouseX := 0
  lastMouseY := 0
  windows := []
  midZs := []
  widsToWindows := hashmapInit 20
  bottomZ := NULL
  topZ := NULL
  focusedWindow := NULL
  mouseWindow := NULL
  updateList := []
  mouseState := .normal
  mouseSprite := cursor
  winXOffset := 0
  winYOffset := 0
  winIdCount := 1
  heap := fun _ => none
  sent := []
  changes := 0

/-- The background window and its test picture. -/
def openBackground (bg : Word) (entry : Option Addr) : M Unit := do
  let s ← get
  serverWindowCreate bg entry s.width s.height NULL
  let w ← window bg
  setWindow bg (some { w with hidden := false, x := 0, y := 0 })
  drawWindow bg (do
    drawFill FSK_WHITE
    drawPixel 4 4 FSK_CORN_SILK
    drawRectSolid 10 10 20 20 FSK_RED)
  markWindow bg

/-- The states in which the main loop starts; the allocations of `main` succeed. -/
def Started (s : Globals) : Prop :=
  ∃ (v : Screen) (buffer backbuffer : Int → Word) (cursor : Sprite) (bg : Word) (a : Addr),
    cursor.alpha = .embedded ∧ bg ≠ NULL ∧
      openBackground bg (some a) (v.initial buffer backbuffer cursor) = .ok ((), s)

end Frog.Compositor
