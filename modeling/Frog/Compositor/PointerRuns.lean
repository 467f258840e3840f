import Frog.Compositor.Events

/-!
# Runs of the compositor

From the start on, safe events keep the window pointers right and never touch a window that is not
there. Closing a window that a pointer still names breaks this.
-/

set_option autoImplicit false

namespace Frog.Compositor

open Prog Painter HashMap

/-! ## The start -/

section Start
variable {v : Screen} {buffer backbuffer : Int → Word} {cursor : Sprite} {bg : Word} {a : Addr}

theorem Screen.mul_le (v : Screen) : v.width * v.height ≤ v.pitch * v.height :=
  mul_le_mul_of_nonneg_right v.width_le (by have := v.height_ge; omega)

theorem Inv.initial (v : Screen) : Inv (v.initial buffer backbuffer cursor) := by
  have hw := v.width_ge
  have hh := v.height_ge
  refine ⟨⟨?_, v.width_lt⟩, ⟨?_, v.height_lt⟩, List.not_mem_nil, List.nodup_nil, fun p => ?_,
    .refl _, ⟨_, Holds.init (by decide), fun wid p => ?_⟩, .inl rfl, .inl rfl, .inl rfl, rfl⟩
  · simp only [Screen.initial]
    omega
  · simp only [Screen.initial]
    omega
  · simp [Screen.initial]
  · simp [Screen.initial]

/-- The background window, with the picture `b`. -/
def Screen.background (v : Screen) (b : Int → Word) : Window :=
  ⟨1, 0, 0, v.width, v.height, NULL, 255, false, false, b⟩

theorem Screen.background_context (v : Screen) (b : Int → Word) :
    initGfxPoudlandSwindow (v.background b) =
      ⟨v.width, v.height, v.width, v.width * v.height, b, b, none, 0⟩ := by
  have hw := v.width_ge
  have hh := v.height_ge
  have hwl := v.width_lt
  have hhl := v.height_lt
  have hmul := v.mul_le
  have hfit := v.fits
  have hpos : 0 ≤ v.width * v.height := mul_nonneg (by omega) (by omega)
  simp only [initGfxPoudlandSwindow, Screen.background]
  rw [u32_of_small (by omega) (by omega), u32_of_small (by omega) (by omega),
    u32_of_small (by omega) (by omega)]
  congr 1
  omega

/-- The test picture fits into the window. -/
theorem wp_testPicture {c : Context} {E : Fault → Prop} (h : c.Fits)
    (hw : 30 ≤ c.width ∧ c.width < 65536) (hh : 30 ≤ c.height ∧ c.height < 65536) :
    wp E (do
      drawFill FSK_WHITE
      drawPixel 4 4 FSK_CORN_SILK
      drawRectSolid 10 10 20 20 FSK_RED) (fun _ _ => True) c := by
  rw [wp_bind, drawFill, wp_bind, wp_get, wp_bind, wp_check]
  refine ⟨fun _ => ?_, fun hn => (hn ⟨hh.2, .inl hw.2⟩).elim⟩
  refine wp_mono (h.wp_put fun e he => ?_) ?_
  · obtain ⟨i, j, hi, hj, heq⟩ := mem_solid he
    exact ⟨i, j, by omega, by omega, heq⟩
  rintro _ _ ⟨b, rfl⟩
  rw [wp_bind, drawPixel, wp_bind, wp_get]
  refine wp_mono ((h.setBackbuffer b).wp_put fun e he => ?_) ?_
  · rw [List.mem_singleton.mp he]
    exact ⟨4, 4, ⟨by omega, lt_of_lt_of_le (by omega) hw.1⟩,
      ⟨by omega, lt_of_lt_of_le (by omega) hh.1⟩, rfl⟩
  rintro _ _ ⟨b', rfl⟩
  rw [drawRectSolid, wp_bind, wp_get, wp_bind, wp_check]
  refine ⟨fun _ => ?_, fun hn => (hn (by decide)).elim⟩
  refine wp_mono ((h.setBackbuffer b').wp_put fun e he => ?_)
    fun _ _ _ => trivial
  obtain ⟨i, j, hi, hj, heq⟩ := mem_solid he
  exact ⟨i, j, ⟨by omega, lt_of_lt_of_le hi.2 hw.1⟩, ⟨by omega, lt_of_lt_of_le hj.2 hh.1⟩, heq⟩

theorem wp_openBackground (hbg : bg ≠ NULL) :
    wp (fun _ => False) (openBackground bg (some a)) (fun _ t => Inv t ∧ ∃ m b,
      (∃ r, hashmapSet 1 (some a) 1 bg (hashmapInit 20) = .ok (r, m)) ∧
      t = ((v.initial buffer backbuffer cursor).opened bg m (v.background b)).mark
        (v.background b)) (v.initial buffer backbuffer cursor) := by
  rw [openBackground, wp_bind, wp_get, wp_bind]
  have hu : (v.initial buffer backbuffer cursor).Unused 1 := fun p w hp => by
    simp [Screen.initial] at hp
  apply wp_mono (wp_serverWindowCreate (Inv.initial v) hbg rfl rfl hu)
  rintro _ _ ⟨m, hi, hm, rfl⟩
  have hat : ∀ {w}, ((v.initial buffer backbuffer cursor).opened bg m w).At bg w :=
    Globals.opened_at hbg
  rw [wp_bind, wp_window hat, wp_bind, Compositor.setWindow, wp_modify]
  change wp _ _ _ (Globals.setWindow _ _ (v.background fun _ => 0))
  rw [Globals.opened_setWindow, wp_bind, wp_drawWindow hat]
  have hw := v.width_ge
  have hh := v.height_ge
  rw [v.background_context]
  apply wp_mono (wp_testPicture ⟨by simp only; omega, le_refl _, le_refl _⟩ ⟨hw, v.width_lt⟩
    ⟨hh, v.height_lt⟩)
  intro _ c _
  have hi' := hi.setWindow hat (v := v.background c.backbuffer) rfl
  change wp _ _ _ (Globals.setWindow _ _ (v.background c.backbuffer))
  rw [Globals.opened_setWindow] at hi' ⊢
  rw [wp_markWindow (w := v.background c.backbuffer) hat]
  exact ⟨hi'.mark _, m, _, hm, rfl⟩

end Start

theorem Started.inv {s : Globals} (h : Started s) : Inv s := by
  obtain ⟨v, buffer, backbuffer, cursor, bg, a, -, hbg, hrun⟩ := h
  exact (wp_ok (wp_openBackground hbg) hrun).1

/-! ## Runs -/

/-- Every pointer is `NULL` or listed, listed windows exist, and the hash map has exactly the
numbers of the listed windows, each with its window. -/
structure Sound (s : Globals) : Prop where
  pointers : ∀ p ∈ [s.focusedWindow, s.topZ, s.bottomZ, s.mouseWindow], s.Listed p
  live : ∀ p, p ∈ s.windows → ∃ w, s.heap p = some w
  has : ∀ wid, ∃ b, onMap (fun fuel => hashmapHas fuel wid) s = .ok (b, s) ∧
    (b = true ↔ ∃ p ∈ s.windows, ∃ w, s.heap p = some w ∧ w.wid = wid)
  get : ∀ p ∈ s.windows, ∀ w, s.heap p = some w →
    onMap (fun fuel => hashmapGet fuel w.wid) s = .ok (p, s)

theorem Inv.sound {s : Globals} (h : Inv s) : Sound s := by
  constructor
  · intro p hp
    simp only [List.mem_cons, List.not_mem_nil, or_false] at hp
    rcases hp with rfl | rfl | rfl | rfl
    · rw [h.focused]
      exact h.top
    · exact h.top
    · exact h.bottom
    · exact h.mouse
  · exact fun p hp => (h.live p).mp hp
  · intro wid
    obtain ⟨b, hrun, hb⟩ := h.has wid
    refine ⟨b, hrun, hb.trans ?_⟩
    constructor
    · rintro ⟨p, w, hw, hwid⟩
      exact ⟨p, (h.live p).mpr ⟨w, hw⟩, w, hw, hwid⟩
    · rintro ⟨p, -, w, hw, hwid⟩
      exact ⟨p, w, hw, hwid⟩
  · intro p _ w hw
    obtain ⟨q, hrun, -, hq⟩ := h.get w.wid
    rw [hrun, hq p w hw rfl]

/-- The steps of safe events. -/
abbrev SafeStep : Globals → Event → Globals → Prop := Guarded (fun s e => e.Safe s) Step

theorem Inv.run {s t : Globals} {es : List Event} (h : Inv s) (hrun : Run SafeStep s es t) :
    Inv t :=
  hrun.guarded_invariant (fun _ _ _ hi hs hst => (wp_ok (wp_handle hi hst.1 hs) hst.2).1) h

theorem Inv.close {s : Globals} {p : Word} {w : Window} (h : Inv s) (hat : s.At p w) :
    ∃ m, handle (.windowClose w.wid) s = .ok ((), ((s.unfocus p).mark w).closed p m) := by
  obtain ⟨b, hrun, hb⟩ := h.has w.wid
  obtain rfl : b = true := hb.mpr ⟨p, w, hat.2, rfl⟩
  obtain ⟨_, t, hc, m, -, rfl⟩ := ok_of_wp (wp_serverWindowClose h hat)
  refine ⟨m, ?_⟩
  rw [handle, bind_ok hrun, if_pos rfl, hc]

/-! ## A first window -/

/-- A screen of 30 by 30 pixels. -/
def smallScreen : Screen where
  width := 30
  height := 30
  pitch := 30
  width_ge := by decide
  height_ge := by decide
  width_lt := by decide
  height_lt := by decide
  width_le := by decide
  fits := by decide

def noCursor : Sprite := ⟨0, 0, fun _ => 0, .embedded, by decide, by decide⟩

/-- The hash map with the background window, at address 1. -/
def oneEntry : Hashmap :=
  { size := 20
    entry := Function.update (fun _ => none) 1 (some 0)
    heap := Function.update (fun _ => none) 0 (some ⟨1, 1, none⟩) }

/-- The start with the background window at address 1. -/
def Screen.started (v : Screen) (b : Int → Word) : Globals :=
  ((v.initial (fun _ => 0) (fun _ => 0) noCursor).opened 1 oneEntry (v.background b)).mark
    (v.background b)

theorem exists_started (v : Screen) : ∃ b, Started (v.started b) := by
  have hw : wp (fun _ => False) (openBackground 1 (some 0)) _
      (v.initial (fun _ => 0) (fun _ => 0) noCursor) := wp_openBackground (by decide)
  obtain ⟨_, t, hrun, -, m, b, ⟨r, hm⟩, rfl⟩ := ok_of_wp hw
  have hone : hashmapSet 1 (some 0) 1 1 (hashmapInit 20) = .ok (some 0, oneEntry) := rfl
  obtain rfl : m = oneEntry := by
    rw [hone] at hm
    exact (Prod.mk.inj (Except.ok.inj hm)).2.symm
  exact ⟨b, v, _, _, noCursor, 1, 0, rfl, by decide, hrun⟩

/-- A second window, of one pixel, at address 2. -/
def secondWindow : Event := .windowNew 0 0 1 1 0 0 2 (some 1)

def secondAt (b : Int → Word) : Window := newWindow 2 0 0 1 1 0 b

/-- The mouse is where it was at the start. -/
structure AtRest (s : Globals) : Prop where
  state : s.mouseState = .normal
  mouse : s.mouseX = 0 ∧ s.mouseY = 0
  last : s.lastMouseX = 0 ∧ s.lastMouseY = 0

theorem exists_second : ∃ a u b, Started (smallScreen.started a) ∧
    SafeStep (smallScreen.started a) secondWindow u ∧ u.At 2 (secondAt b) ∧
    u.bottomZ = 2 ∧ (u.topZ = NULL ∧ u.midZs = [1, 2]) ∧ u.width = 30 ∧ u.height = 30 ∧
    u.mouseWindow = NULL ∧ u.At 1 (smallScreen.background a) ∧ AtRest u := by
  obtain ⟨b, hs⟩ := exists_started smallScreen
  have hnew : ∃ u, handle secondWindow (smallScreen.started b) = .ok ((), u) ∧
      u.mouseWindow = NULL ∧ AtRest u := ⟨_, rfl, rfl, rfl, ⟨rfl, rfl⟩, ⟨rfl, rfl⟩⟩
  obtain ⟨u, hu, hmouse, hrest⟩ := hnew
  have hfresh : Event.Fresh (smallScreen.started b) secondWindow := by
    refine ⟨.inr rfl, ?_⟩
    rintro _ ⟨⟩
    rfl
  have hunused : (smallScreen.started b).Unused 2 := by
    intro p w hp
    change Function.update (fun _ => none) 1 (some (smallScreen.background b)) p = some w at hp
    rw [Function.update_apply] at hp
    split at hp
    · cases hp
      exact (by decide : (1 : Word) ≠ 2)
    · cases hp
  have hsafe : Event.Safe (smallScreen.started b) secondWindow := ⟨by decide, by decide, hunused⟩
  have ho := (wp_ok (wp_handle hs.inv hfresh hsafe) hu).2
  obtain ⟨⟨b', hat⟩, hb, ht, hm, hw, hh⟩ := ho.created (by decide)
  have hbg : u.At 1 (smallScreen.background b) := by
    obtain ⟨m, c, -, _, _, _, _, _, _, _, -, rfl⟩ := ho
    exact ⟨by decide, rfl⟩
  exact ⟨b, u, b', hs, ⟨hsafe, hfresh, hu⟩, hat, hb, ⟨ht, hm⟩, hw, hh, hmouse, hbg, hrest⟩

/-! ## A window is taken and dragged -/

section Drag
variable {s : Globals} {p q : Word} {w g : Window} {dx dy : Int}

/-- The mouse is moved to its new place. -/
def Globals.pointed (s : Globals) (dx dy : Int) : Globals :=
  { s with mouseX := (s.clampX dx).1, mouseY := (s.clampY dy).1 }

theorem Inv.pointed (h : Inv s) (dx dy : Int) : Inv (s.pointed dx dy) :=
  ⟨h.wide, h.high, h.null, h.nodup, h.live, h.mid, h.map, h.bottom, h.top, h.mouse, h.focused⟩

/-- The window has the focus and is dragged from now on. -/
def Globals.taken (s : Globals) (p : Word) (w : Window) (dx dy : Int) : Globals :=
  { ((s.pointed dx dy).raise p).mark w with
    mouseState := .dragging, mouseWindow := p, winXOffset := u32 ((s.clampX dx).2 - w.x),
    winYOffset := u32 ((s.clampY dy).2 - w.y) }

/-- A press after a move of the mouse takes the window under it. -/
theorem press_run (h : Inv s) (hs : s.mouseState = .normal) (hmove : s.isMove dx dy = true)
    (hp : s.topOf (u32 (s.clampX dx).2) (u32 (s.clampY dy).2) = p) (hw : s.At p w) (hwid : 1 < w.wid) :
    handle (.mouse dx dy 1) s = .ok ((), s.taken p w dx dy) := by
  have htop := (h.pointed dx dy).windowTopOf_eq (u32 (s.clampX dx).2) (u32 (s.clampY dy).2)
  change windowTopOf _ _ _ = .ok (s.topOf _ _, _) at htop
  rw [hp] at htop
  have hleft : isLeft 1 = true := by decide
  apply run_eq_of_wp
  rw [handle, mouseHandler, wp_bind, wp_get, wp_bind, wp_modify]
  have hs' : (s.pointed dx dy).mouseState = .normal := hs
  change wp _ _ _ (s.pointed dx dy)
  rw [mouseAction, wp_bind, wp_get, hs']
  simp only [hmove, hleft]
  rw [if_neg (by decide), if_pos (by decide), wp_bind, wp_of_ok htop, wp_bind, setMouseState, wp_modify,
    grab, if_neg hw.1, wp_bind]
  have hw₁ : ({ s.pointed dx dy with mouseState := .dragging } : Globals).At p w := hw
  refine (wp_setFocusWindow hw₁).mpr ?_
  rw [Globals.focus, if_neg (BitVec.not_le.mpr hwid), wp_bind]
  have hw₂ : ((({ s.pointed dx dy with mouseState := .dragging } : Globals).raise p).mark w).At p w := hw
  refine (wp_window hw₂).mpr ?_
  rw [wp_modify]
  exact ⟨trivial, rfl⟩

/-- The window is at the mouse again. -/
def Globals.dragged (s : Globals) (g : Window) (dx dy : Int) (out : List (Word × Packet)) : Globals :=
  { (s.pointed dx dy).moved s.mouseWindow g (i32 ((s.clampX dx).2 - s.winXOffset))
      (i32 ((s.clampY dy).2 - s.winYOffset)) with sent := out }

theorem drag_run (h : Inv s) (hs : s.mouseState = .dragging) (hg : s.At s.mouseWindow g)
    (hwid : 1 < g.wid) (hp : s.topOf (u32 (s.clampX dx).2) (u32 (s.clampY dy).2) = p) (hw : s.At p w) :
    ∃ out, handle (.mouse dx dy 1) s = .ok ((), s.dragged g dx dy out) := by
  have htop := (h.pointed dx dy).windowTopOf_eq (u32 (s.clampX dx).2) (u32 (s.clampY dy).2)
  change windowTopOf _ _ _ = .ok (s.topOf _ _, _) at htop
  rw [hp] at htop
  have hleft : isLeft 1 = true := by decide
  have hg' : (s.pointed dx dy).At s.mouseWindow g := hg
  have hw' : (s.pointed dx dy).At p w := hw
  obtain ⟨v, hv⟩ : ∃ v, ((s.pointed dx dy).moved s.mouseWindow g
      (i32 ((s.clampX dx).2 - s.winXOffset)) (i32 ((s.clampY dy).2 - s.winYOffset))).At p v := hw'.moved
  have hrun : wp (fun _ => False) (handle (.mouse dx dy 1))
      (fun _ t => ∃ out, t = s.dragged g dx dy out) s := by
    rw [handle, mouseHandler, wp_bind, wp_get, wp_bind, wp_modify]
    have hs' : (s.pointed dx dy).mouseState = .dragging := hs
    change wp _ _ _ (s.pointed dx dy)
    rw [mouseAction, wp_bind, wp_get, hs']
    simp only [hleft]
    rw [wp_bind, wp_of_ok htop, if_pos trivial, dragTo, wp_bind, wp_get, wp_bind]
    refine (wp_window hg').mpr ?_
    rw [if_pos hwid, wp_bind]
    refine (wp_windowMove hg').mpr ?_
    exact (wp_sendMouseEventMassage hv).mpr ⟨_, rfl⟩
  obtain ⟨_, t, hrun, out, rfl⟩ := ok_of_wp hrun
  exact ⟨out, hrun⟩

end Drag

/-- A press at the corner of the screen, where the second window is. -/
def pressCorner : Event := .mouse (-24) 23 1

def dragAway : Event := .mouse 5 (-5) 1

/-- The second window gets the focus and is dragged away. -/
theorem exists_dragged : ∃ a u v t b, Started (smallScreen.started a) ∧
    SafeStep (smallScreen.started a) secondWindow u ∧ SafeStep u pressCorner v ∧
    SafeStep v dragAway t ∧ (u.topZ = NULL ∧ v.mouseState = .dragging) ∧
    (t.bottomZ = 2 ∧ t.topZ = 2 ∧ t.mouseWindow = 2) ∧ t.midZs = [1, 2] ∧
    (t.At 1 (smallScreen.background a) ∧ t.At 2 ((secondAt b).place 5 5)) ∧
    t.width = 30 ∧ t.height = 30 := by
  obtain ⟨a, u, b, hs, hst, hat, hb, ⟨htop, hmid⟩, hw, hh, -, hbg, hrest⟩ := exists_second
  obtain ⟨hnormal, ⟨hmx, hmy⟩, hlx, hly⟩ := hrest
  have hu : Inv u := hs.inv.run (.single hst)
  have hcx : u.clampX (-24) = (-24, 0) := by
    rw [Globals.clampX, hmx, hw]
    decide
  have hcy : u.clampY 23 = (-23, 0) := by
    rw [Globals.clampY, hmy, hh]
    decide
  have hmove : u.isMove (-24) 23 = true := by
    rw [Globals.isMove, hcx, hcy, hlx, hly]
    decide
  have hzero : i32 (u32 0) = 0 ∧ i32 (u32 5) = 5 := by decide
  have hsecond : ∀ x y, u.hits x y 2 = inWindow 0 0 1 1 x y := by
    intro x y
    rw [Globals.hits, hat.2]
    rfl
  have hfirst : u.hits 5 5 1 = true := by
    rw [Globals.hits, hbg.2]
    rfl
  have hhit : u.topOf (u32 (u.clampX (-24)).2) (u32 (u.clampY 23).2) = 2 := by
    rw [hcx, hcy, Globals.topOf, if_neg (by rw [hw, hh]; decide), Globals.hitOrder, hu.focused, htop,
      if_pos rfl, hmid, hzero.1, lastOf]
    change (List.find? (u.hits 0 0) [2, 1]).getD NULL = 2
    rw [List.find?_cons_of_pos ((hsecond 0 0).trans (by decide)), Option.getD_some]
  have hwid : 1 < (secondAt b).wid := (by decide : (1 : Word) < 2)
  have haim : Event.Safe u pressCorner := by
    change u.Aimed _ _ _ 1
    rw [Globals.Aimed, hnormal]
    exact .inl ⟨.inr (by decide), hmove⟩
  have hpress : SafeStep u pressCorner (u.taken 2 (secondAt b) (-24) 23) :=
    ⟨haim, trivial, press_run hu hnormal hmove hhit hat hwid⟩
  generalize hv : u.taken 2 (secondAt b) (-24) 23 = v at hpress
  have hvi : Inv v := hu.run (.single hpress)
  have hvx : v.clampX 5 = (-19, 5) := by
    rw [← hv]
    change clamp (i32 ((u.clampX (-24)).1 + 5)) MOUSE_OFFSET_X u.width = _
    rw [hcx, hw]
    decide
  have hvy : v.clampY (-5) = (-18, 5) := by
    rw [← hv]
    change clamp (i32 ((u.clampY 23).1 - -5)) MOUSE_OFFSET_Y u.height = _
    rw [hcy, hh]
    decide
  have hat₂ : v.At 2 (secondAt b) := hv ▸ hat
  have hat₁ : v.At 1 (smallScreen.background a) := hv ▸ hbg
  have hvmid : v.midZs = [1, 2] := by
    rw [← hv]
    change u.midZs.erase 2 ++ [2] = _
    rw [hmid]
    decide
  have hvhits : v.hits = u.hits := by
    rw [← hv]
    rfl
  have hvg : v.mouseWindow = 2 ∧ v.focusedWindow = 2 ∧ v.mouseState = .dragging := by
    rw [← hv]
    exact ⟨rfl, rfl, rfl⟩
  have hvtop : v.topOf (u32 (v.clampX 5).2) (u32 (v.clampY (-5)).2) = 1 := by
    have hsize : v.width = 30 ∧ v.height = 30 := by
      rw [← hv]
      exact ⟨hw, hh⟩
    rw [hvx, hvy, Globals.topOf, if_neg (by rw [hsize.1, hsize.2]; decide), Globals.hitOrder, hvg.2.1,
      if_neg (by decide), hvmid, hzero.2, lastOf, hvhits]
    have hout : ¬ u.hits 5 5 2 = true := by
      rw [hsecond]
      decide
    change (List.find? (u.hits 5 5) [2, 2, 1]).getD NULL = 1
    rw [List.find?_cons_of_neg hout, List.find?_cons_of_neg hout, List.find?_cons_of_pos hfirst,
      Option.getD_some]
  have hgrabbed : v.At v.mouseWindow (secondAt b) := by
    rw [hvg.1]
    exact hat₂
  obtain ⟨out, hdrag⟩ := drag_run hvi hvg.2.2 hgrabbed hwid hvtop hat₁
  have haim' : Event.Safe v dragAway := by
    change v.Aimed (v.clampX 5).2 (v.clampY (-5)).2 _ 1
    rw [Globals.Aimed, hvg.2.2, hvx, hvy]
    simp only
    rw [if_pos (by decide)]
    refine ⟨by rw [hvg.1]; decide, fun _ _ _ => ⟨1, hvi.mem hat₁, ?_⟩⟩
    rw [hvhits]
    exact hfirst
  have hkept : v.bottomZ = 2 ∧ v.topZ = 2 ∧ v.width = 30 ∧ v.height = 30 := by
    rw [← hv]
    exact ⟨hb, rfl, hw, hh⟩
  have hoff : v.winXOffset = 0 ∧ v.winYOffset = 0 := by
    rw [← hv]
    change u32 ((u.clampX (-24)).2 - 0) = 0 ∧ u32 ((u.clampY 23).2 - 0) = 0
    rw [hcx, hcy]
    decide
  have hplace : ∀ out, (v.dragged (secondAt b) 5 (-5) out).heap =
      Function.update v.heap 2 (some ((secondAt b).place 5 5)) := by
    intro out
    change Function.update v.heap v.mouseWindow (some ((secondAt b).place
      (i32 ((v.clampX 5).2 - v.winXOffset)) (i32 ((v.clampY (-5)).2 - v.winYOffset)))) = _
    rw [hvg.1, hvx, hvy, hoff.1, hoff.2]
    rfl
  refine ⟨a, u, v, _, b, hs, hst, hpress, ⟨haim', trivial, hdrag⟩, ⟨htop, hvg.2.2⟩,
    ⟨hkept.1, hkept.2.1, hvg.1⟩, hvmid, ⟨⟨by decide, ?_⟩, by decide, ?_⟩, hkept.2.2⟩
  · rw [hplace, Function.update_of_ne (by decide)]
    exact hat₁.2
  · rw [hplace, Function.update_self]

/-! ## Sound runs -/

/-- After safe events the pointers are sound, and the next safe event can only fail in drawing: it
dereferences no window that is `NULL` or freed. -/
theorem safe_run_sound {s t : Globals} {es : List Event} (hs : Started s)
    (hrun : Run SafeStep s es t) :
    Sound t ∧ ∀ (e : Event) (f : Fault), e.Fresh t → e.Safe t → handle e t = .error f →
      f = .hang ∨ f = .outside := by
  have ht := hs.inv.run hrun
  refine ⟨ht.sound, fun e f hf he herr => ?_⟩
  have hw := wp_handle ht hf he
  rw [wp, herr] at hw
  exact hw

theorem safe_run_sound_dragged : ∃ s t, Started s ∧
    Run SafeStep s [secondWindow, pressCorner, dragAway, .windowClose 1] t ∧
    t.windows = [2] ∧ t.topZ = 2 ∧ Sound t := by
  obtain ⟨a, u, v, w, b, hs, hst, hpress, hdrag, -, ⟨hb, htop, hmouse⟩, hmid, ⟨hbg, -⟩, -⟩ :=
    exists_dragged
  have hrun : Run SafeStep _ [secondWindow, pressCorner, dragAway] w :=
    .cons hst (.cons hpress (.single hdrag))
  have hw : Inv w := hs.inv.run hrun
  have hloose : w.Loose 1 := by
    intro p y hp hwid
    obtain rfl := hw.eq_of_wid hp hbg.2 hwid
    rw [hb, htop, hmouse]
    decide
  obtain ⟨m, hclose⟩ := hw.close hbg
  have hall : Run SafeStep _ [secondWindow, pressCorner, dragAway, .windowClose 1] _ :=
    hrun.append (.single ⟨hloose, trivial, hclose⟩)
  have hleft : w.windows.erase 1 = [2] := by
    have hperm := hw.mid.erase 1
    rw [hmid] at hperm
    exact (List.singleton_perm.mp hperm).symm
  exact ⟨_, _, hs, hall, hleft, htop, (safe_run_sound hs hall).1⟩

/-! ## A closed window that is still the lowest one -/

/-- The bottom window is read first. -/
theorem redraw_error {s : Globals} (hb : s.bottomZ ≠ NULL) (hn : s.heap s.bottomZ = none) :
    handle .redraw s = .error .window := by
  have hw : ∀ t : Globals, t.bottomZ = s.bottomZ → t.heap = s.heap →
      poudlandBlitWindows t = .error .window := by
    intro t htb hth
    have hnt : t.bottomZ ≠ NULL := htb ▸ hb
    have hread : window t.bottomZ t = .error .window := by
      rw [window, bind_ok (check_eq_ok.mpr ⟨hnt, rfl⟩ : check _ _ t = .ok ((), t)),
        bind_ok (get_apply t), htb, hth, hn]
      rfl
    rw [poudlandBlitWindows, bind_ok (get_apply t)]
    apply bind_error
    rw [blitBottom, bind_ok (get_apply t), if_neg hnt]
    exact bind_error hread
  rw [handle, redrawWindows, bind_ok (modify_apply _ s)]
  exact bind_error (hw _ rfl rfl)

/-- A window is created and closed: it stays the bottom window, and the next frame reads it. -/
theorem bottom_dangles : ∃ s t, Started s ∧ Run Step s [secondWindow, .windowClose 2] t ∧
    t.bottomZ ≠ NULL ∧ t.bottomZ ∉ t.windows ∧ handle .redraw t = .error .window := by
  obtain ⟨_, u, b, hs, hst, hat, hb, -⟩ := exists_second
  have hi : Inv u := hs.inv.run (.single hst)
  obtain ⟨m, ht⟩ := hi.close hat
  have hne : u.bottomZ ≠ NULL := by
    rw [hb]
    decide
  have hout : u.bottomZ ∉ u.windows.erase 2 := by
    rw [hb]
    exact hi.nodup.not_mem_erase
  have hgone : Function.update u.heap 2 none u.bottomZ = none := by
    rw [hb]
    exact Function.update_self ..
  refine ⟨_, _, hs, .cons hst.2 (.cons ⟨trivial, ht⟩ (.nil _)), hne, hout, ?_⟩
  exact redraw_error (s := ((u.unfocus 2).mark (secondAt b)).closed 2 m) hne hgone

end Frog.Compositor
