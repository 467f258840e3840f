import Frog.Compositor.Pointers

/-!
# The events

What an event leaves behind, and that no safe event dereferences a window that is not there.
-/

set_option autoImplicit false

namespace Frog.Compositor

open Prog Painter HashMap

/-! ## Nothing a window depends on -/

/-- Where `clamp` leaves the mouse. -/
def Near (n : Int) : Prop := -24 ≤ n ∧ n < 65536

/-- Only the mouse and the packets sent differ. -/
def Idle (s t : Globals) : Prop :=
  ∃ mx my ms g ox oy out, ((mx = s.mouseX ∨ Near mx) ∧ (my = s.mouseY ∨ Near my) ∧
    (g = s.mouseWindow ∨ g ∈ s.windows)) ∧ t = { s with
      mouseX := mx, mouseY := my, mouseState := ms, mouseWindow := g, winXOffset := ox,
      winYOffset := oy, sent := out }

section Idle
variable {s t u : Globals}

theorem Idle.refl (s : Globals) : Idle s s := ⟨_, _, _, _, _, _, _, ⟨.inl rfl, .inl rfl, .inl rfl⟩, rfl⟩

theorem Idle.trans (h : Idle s t) (h' : Idle t u) : Idle s u := by
  obtain ⟨mx, my, _, g, _, _, _, ⟨hx, hy, hg⟩, rfl⟩ := h
  obtain ⟨mx', my', _, g', _, _, _, ⟨hx', hy', hg'⟩, rfl⟩ := h'
  refine ⟨_, _, _, _, _, _, _, ⟨?_, ?_, ?_⟩, rfl⟩
  · rcases hx' with rfl | hx'
    · exact hx
    · exact .inr hx'
  · rcases hy' with rfl | hy'
    · exact hy
    · exact .inr hy'
  · rcases hg' with rfl | hg'
    · exact hg
    · exact .inr hg'

theorem Idle.inv (h : Idle s t) (hs : Inv s) : Inv t := by
  obtain ⟨_, _, _, g, _, _, _, ⟨-, -, hg⟩, rfl⟩ := h
  refine ⟨hs.wide, hs.high, hs.null, hs.nodup, hs.live, hs.mid, hs.map, hs.bottom, hs.top, ?_,
    hs.focused⟩
  rcases hg with rfl | hg
  · exact hs.mouse
  · exact .inr hg

theorem Idle.at {p : Word} {w : Window} (h : Idle s t) (hp : s.At p w) : t.At p w := by
  obtain ⟨_, _, _, _, _, _, _, -, rfl⟩ := h
  exact hp

theorem Idle.focus {p : Word} {w : Window} (h : Idle s t) :
    Idle (s.focus p w) (t.focus p w) := by
  obtain ⟨_, _, _, _, _, _, _, hg, rfl⟩ := h
  unfold Globals.focus
  split <;> exact ⟨_, _, _, _, _, _, _, hg, rfl⟩

theorem Idle.moved {p : Word} {w : Window} {x y : Int} (h : Idle s t) :
    Idle (s.moved p w x y) (t.moved p w x y) := by
  obtain ⟨_, _, _, _, _, _, _, hg, rfl⟩ := h
  exact ⟨_, _, _, _, _, _, _, hg, rfl⟩

end Idle

/-! ## The mouse -/

/-- Some window is hit. -/
def Globals.Covered (s : Globals) (x y : Int) : Prop := ∃ p ∈ s.windows, s.hits x y p = true

/-- There is a window where a packet is sent or a window dragged. -/
def Globals.Aimed (s : Globals) (x y : Int) (isMove : Bool) (buttons : Word) : Prop :=
  match s.mouseState with
  | .normal => ((buttons = 0 ∨ isLeft buttons) ∧ isMove) ∨ s.Covered x y
  | .moving => s.Covered x y
  | .dragging =>
    if isLeft buttons then
      s.mouseWindow ≠ NULL ∧
        ∀ w, s.heap s.mouseWindow = some w → 1 < w.wid → s.Covered x y
    else s.Covered x y

/-- Nothing, a change of the focus, or the move of a window. -/
def MouseDone (s : Globals) (x y : Int) (buttons : Word) (t : Globals) : Prop :=
  Idle s t ∨
  (∃ w, isLeft buttons = true ∧ s.mouseState ≠ .dragging ∧ s.At (s.topOf (u32 x) (u32 y)) w ∧
    Idle (s.focus (s.topOf (u32 x) (u32 y)) w) t) ∨
  ∃ p w x' y', IsInt x' ∧ IsInt y' ∧ s.At p w ∧ Idle (s.moved p w x' y') t

section Mouse
variable {s : Globals} {p q : Word} {w v : Window} {x y : Int}

theorem clamp_range {m offset extent : Int} (hm : IsInt m)
    (ho : 0 ≤ offset ∧ offset < 65536) (he : 0 < extent ∧ extent < 65536) :
    0 ≤ (clamp m offset extent).2 ∧ (clamp m offset extent).2 < extent := by
  unfold IsInt at hm
  unfold clamp
  split
  · exact ⟨by simp, he.1⟩
  · split
    · simp only
      rw [i32_of_small (by omega) (by omega)]
      omega
    · rename_i h1 h2
      have hu : u32 (m + offset) = m + offset := u32_of_small (by omega) (by omega)
      rw [hu] at h2
      simp only
      rw [i32_of_small (by omega) (by omega)]
      omega

theorem clamp_near {m offset extent : Int} (hm : IsInt m) (ho : 0 ≤ offset ∧ offset ≤ 24)
    (he : 0 < extent ∧ extent < 65536) : Near (clamp m offset extent).1 := by
  unfold IsInt at hm
  unfold Near clamp
  split
  · exact ⟨by omega, by omega⟩
  · split
    · simp only
      rw [i32_of_small (by omega) (by omega)]
      omega
    · rename_i h1 h2
      have hu : u32 (m + offset) = m + offset := u32_of_small (by omega) (by omega)
      rw [hu] at h2
      exact ⟨by omega, by omega⟩

theorem Inv.clampX (h : Inv s) (dx : Int) :
    0 ≤ (s.clampX dx).2 ∧ (s.clampX dx).2 < s.width :=
  clamp_range (isInt_i32 _) (by decide) h.wide

theorem Inv.clampY (h : Inv s) (dy : Int) :
    0 ≤ (s.clampY dy).2 ∧ (s.clampY dy).2 < s.height :=
  clamp_range (isInt_i32 _) (by decide) h.high

theorem Globals.At.focus (h : s.At q v) : (s.focus p w).At q v := by
  rw [Globals.focus]
  split <;> exact h

theorem Globals.At.moved (h : s.At q v) : ∃ v', (s.moved p w x y).At q v' := by
  by_cases hq : q = p
  · subst hq
    exact ⟨w.place x y, h.1, Function.update_self ..⟩
  · exact ⟨v, h.1, (Function.update_of_ne hq ..).trans h.2⟩

theorem Globals.focus_windows : (s.focus p w).windows = s.windows := by
  rw [Globals.focus]
  split <;> rfl

theorem Inv.topOf_at (h : Inv s) (hx : 0 ≤ x ∧ x < s.width) (hy : 0 ≤ y ∧ y < s.height)
    (hc : s.Covered x y) : ∃ w, s.At (s.topOf (u32 x) (u32 y)) w :=
  h.listed_at (h.topOf_listed _ _) ((h.topOf_ne_null hx hy).mpr hc)

variable {E : Fault → Prop} {buttons : Word} {event : MouseEvent} {ms : MouseState}

theorem wp_setMouseState : wp E (setMouseState ms) (fun _ t => Idle s t) s := by
  rw [setMouseState, wp_modify]
  exact ⟨_, _, _, _, _, _, _, ⟨.inl rfl, .inl rfl, .inl rfl⟩, rfl⟩

theorem wp_send (h : s.At p w) :
    wp E (sendMouseEventMassage p x y event buttons) (fun _ t => Idle s t) s := by
  rw [wp_sendMouseEventMassage h]
  exact ⟨_, _, _, _, _, _, _, ⟨.inl rfl, .inl rfl, .inl rfl⟩, rfl⟩

theorem wp_focusIf {left : Bool} (h : s.At p w) : wp E (focusIf left p)
    (fun _ t => t = if left then s.focus p w else s) s := by
  have hn := h.1
  rw [focusIf]
  cases left with
  | false => rfl
  | true =>
    rw [if_pos (by simpa using hn)]
    exact (wp_setFocusWindow h).mpr rfl

theorem wp_grab (hp : p ∈ s.windows) (h : s.At p w) :
    wp E (grab p x y) (fun _ t => Idle (s.focus p w) t) s := by
  rw [grab, if_neg h.1, wp_bind, wp_setFocusWindow h, wp_bind, wp_window h.focus, wp_modify]
  refine ⟨_, _, _, _, _, _, _, ⟨.inl rfl, .inl rfl, .inr ?_⟩, rfl⟩
  rw [Globals.focus_windows]
  exact hp

/-- The focus when the left button is down, then something that leaves the windows alone. -/
theorem wp_click {m : M Unit} (h : s.At p w)
    (hm : ∀ t, t.At p w → wp E m (fun _ u => Idle t u) t) :
    wp E (focusIf (isLeft buttons) p >>= fun _ => m)
      (fun _ t => Idle (if isLeft buttons then s.focus p w else s) t) s := by
  rw [wp_bind]
  apply wp_mono (wp_focusIf h)
  rintro _ _ rfl
  apply hm
  split
  · exact h.focus
  · exact h

/-- A change of the mouse, then a packet. -/
theorem wp_setThenSend (h : s.At p w) :
    wp E (setMouseState ms >>= fun _ => sendMouseEventMassage p x y event buttons)
      (fun _ t => Idle s t) s := by
  rw [wp_bind]
  apply wp_mono wp_setMouseState
  intro _ t ht
  apply wp_mono (wp_send (ht.at h))
  exact fun _ u hu => ht.trans hu

theorem wp_dragTo (h : Inv s) (hm : s.mouseWindow ≠ NULL)
    (hp : ∀ g, s.At s.mouseWindow g → 1 < g.wid → ∃ w, s.At p w) :
    wp E (dragTo p x y buttons) (fun _ t => Idle s t ∨
      ∃ q g x' y', IsInt x' ∧ IsInt y' ∧ s.At q g ∧ Idle (s.moved q g x' y') t) s := by
  obtain ⟨g, hg⟩ := h.listed_at h.mouse hm
  rw [dragTo, wp_bind, wp_get, wp_bind, wp_window hg]
  split
  · rename_i hwid
    obtain ⟨w, hw⟩ := hp g hg hwid
    rw [wp_bind, wp_windowMove hg]
    obtain ⟨w', hw'⟩ := hw.moved
    apply wp_mono (wp_send hw')
    exact fun _ t ht => .inr ⟨_, _, _, _, isInt_i32 _, isInt_i32 _, hg, ht⟩
  · exact .inl (.refl s)

theorem wp_mouseAction (h : Inv s) (hx : 0 ≤ x ∧ x < s.width) (hy : 0 ≤ y ∧ y < s.height)
    {isMove : Bool} (ha : s.Aimed x y isMove buttons) :
    wp Drawing (mouseAction x y isMove buttons) (fun _ t => MouseDone s x y buttons t) s := by
  have htop := h.windowTopOf_eq (u32 x) (u32 y)
  have hat := h.topOf_at hx hy
  -- what a click leaves behind
  have hclick : ∀ w t, s.mouseState ≠ .dragging → s.At (s.topOf (u32 x) (u32 y)) w →
      Idle (if isLeft buttons then s.focus (s.topOf (u32 x) (u32 y)) w else s) t →
      MouseDone s x y buttons t := by
    intro w t hms hw ht
    cases hl : isLeft buttons with
    | true =>
      rw [hl] at ht
      exact .inr (.inl ⟨w, hl, hms, hw, ht⟩)
    | false =>
      rw [hl] at ht
      exact .inl ht
  rw [mouseAction, wp_bind, wp_get]
  rw [Globals.Aimed] at ha
  cases hs : s.mouseState with
  | normal =>
    have hne : s.mouseState ≠ .dragging := by simp [hs]
    rw [hs] at ha
    simp only at ha ⊢
    split
    · exact wp_mono wp_setMouseState fun _ t ht => .inl ht
    · rename_i h1
      split
      · rename_i h2
        rw [Bool.and_eq_true] at h2
        rw [wp_bind, wp_of_ok htop, wp_bind]
        apply wp_mono wp_setMouseState
        intro _ t ht
        by_cases hn : s.topOf (u32 x) (u32 y) = NULL
        · rw [grab, if_pos hn]
          exact .inl ht
        · obtain ⟨w, hw⟩ := h.listed_at (h.topOf_listed _ _) hn
          apply wp_mono (wp_grab ((ht.inv h).mem (ht.at hw)) (ht.at hw))
          exact fun _ u hu => .inr (.inl ⟨w, h2.1, hne, hw, ht.focus.trans hu⟩)
      · rename_i h2
        have hc : s.Covered x y := by
          rcases ha with ⟨hb | hb, hm⟩ | hc
          · simp [hb, hm] at h1
          · simp [hb, hm] at h2
          · exact hc
        obtain ⟨w, hw⟩ := hat hc
        rw [wp_bind, wp_of_ok htop]
        apply wp_mono (wp_click hw fun t ht => wp_send ht)
        exact fun _ t ht => hclick w t hne hw ht
  | moving =>
    have hne : s.mouseState ≠ .dragging := by simp [hs]
    rw [hs] at ha
    obtain ⟨w, hw⟩ := hat ha
    simp only
    rw [wp_bind, wp_of_ok htop]
    split
    · apply wp_mono (wp_click hw fun t ht => wp_setThenSend ht)
      exact fun _ t ht => hclick w t hne hw ht
    · exact wp_mono (wp_send hw) fun _ t ht => .inl ht
  | dragging =>
    rw [hs] at ha
    simp only at ha ⊢
    rw [wp_bind, wp_of_ok htop]
    split
    · rename_i hl
      rw [if_pos hl] at ha
      apply wp_mono (wp_dragTo h ha.1 fun g hg hwid => hat (ha.2 g hg.2 hwid))
      rintro _ t (ht | ht)
      · exact .inl ht
      · exact .inr (.inr ht)
    · rename_i hl
      rw [if_neg hl] at ha
      obtain ⟨w, hw⟩ := hat ha
      exact wp_mono (wp_setThenSend hw) fun _ t ht => .inl ht

end Mouse

/-! ## Messages -/

/-- A new window is marked and becomes the bottom window. -/
def Globals.created (s : Globals) (win : Word) (m : Hashmap) (w : Window) : Globals :=
  { (s.opened win m w).mark w with bottomZ := win }

/-- What `draw_fill` makes sure of. -/
structure Window.Sized (w : Window) : Prop where
  x : IsInt w.x
  y : IsInt w.y
  height : 0 ≤ w.height ∧ w.height < 65536
  width : 0 < w.height → 0 ≤ w.width ∧ w.width < 65536
  opaqued : w.opacity = 255 ∧ w.minimized = false

/-- The window that a message creates. -/
def newWindow (wid x y width height owner : Word) (b : Int → Word) : Window :=
  ⟨wid, x.toInt, y.toInt, width.toInt, height.toInt, owner, 255, false, false, b⟩

section Messages
variable {s : Globals} {p win : Word} {w : Window} {wid : Word} {a : Addr}

theorem wp_serverWindowCreate (h : Inv s) (hwin : win ≠ NULL) (hfree : s.heap win = none)
    (ha : s.widsToWindows.heap a = none) (hu : s.Unused s.winIdCount) {width height : Int}
    {owner : Word} {E : Fault → Prop} :
    wp E (serverWindowCreate win (some a) width height owner) (fun _ t => ∃ m, Inv t ∧
      (∃ r, hashmapSet (s.changes + 1) (some a) s.winIdCount win s.widsToWindows = .ok (r, m)) ∧
      t = s.opened win m ⟨s.winIdCount, 0, 0, width, height, owner, 255, true, false,
        fun _ => 0⟩) s := by
  obtain ⟨spec, hh, -⟩ := h.map
  obtain ⟨hset, -, -⟩ := hh.returns (Nat.lt_succ_self _) s.winIdCount win
  obtain ⟨r, m, hrun⟩ := hset a ha
  have hstep : HashMap.Step (s.changes + 1) s.widsToWindows (.set s.winIdCount win) m :=
    ⟨a, r, ha, hrun⟩
  rw [serverWindowCreate, wp_bind, wp_check]
  refine ⟨fun _ => ?_, fun hn => absurd hwin hn⟩
  rw [nextWid, wp_bind, wp_bind, wp_get, wp_bind, wp_modify, wp_pure, wp_bind, wp_modify, wp_bind,
    wp_of_ok (onMap_ok (t := m) (a := r) hrun), wp_bind, changed, wp_modify, Compositor.setWindow,
    wp_modify]
  exact ⟨m, h.opened hwin hfree hu hstep, ⟨r, hrun⟩, rfl⟩

theorem Globals.opened_setWindow {m : Hashmap} {v : Window} :
    (s.opened win m w).setWindow win v = s.opened win m v := by
  simp [Globals.opened, Globals.setWindow]

theorem Globals.opened_at {m : Hashmap} (h : win ≠ NULL) : (s.opened win m w).At win w :=
  ⟨h, Function.update_self ..⟩

theorem newWindow_sized {x y width height owner : Word} {b : Int → Word}
    (h : u32 height.toInt < 65536 ∧ (u32 width.toInt < 65536 ∨ u32 height.toInt ≤ 0)) :
    (newWindow wid x y width height owner b).Sized := by
  have hw := isInt_toInt width
  have hh := isInt_toInt height
  unfold IsInt u32 at *
  refine ⟨isInt_toInt x, isInt_toInt y, ?_, ?_, rfl, rfl⟩
  · simp only [newWindow]
    omega
  · simp only [newWindow]
    omega

theorem wp_quickCreateWindow (h : Inv s) (hwin : win ≠ NULL) (hfree : s.heap win = none)
    (ha : s.widsToWindows.heap a = none) (hu : s.Unused s.winIdCount)
    {x y width height color owner : Word} :
    wp Drawing (quickCreateWindow win (some a) x.toInt y.toInt width.toInt height.toInt color owner)
      (fun _ t => Inv t ∧ ∃ m b, (newWindow s.winIdCount x y width height owner b).Sized ∧
        t = s.created win m (newWindow s.winIdCount x y width height owner b)) s := by
  rw [quickCreateWindow, wp_bind]
  apply wp_mono (wp_serverWindowCreate h hwin hfree ha hu)
  rintro _ _ ⟨m, hi, -, rfl⟩
  have hat : ∀ {v}, (s.opened win m v).At win v := Globals.opened_at hwin
  rw [wp_bind, wp_window hat, wp_bind, Compositor.setWindow, wp_modify]
  change wp Drawing _ _ (Globals.setWindow _ _ _)
  rw [Globals.opened_setWindow, wp_bind, wp_drawWindow hat]
  apply wp_mono wp_drawFill
  rintro _ _ ⟨hsize, b, rfl⟩
  have hi' := hi.setWindow hat (v := newWindow s.winIdCount x y width height owner b) rfl
  rw [Globals.opened_setWindow] at hi' ⊢
  rw [wp_bind]
  refine (wp_markWindow (w := newWindow s.winIdCount x y width height owner b) hat).mpr ?_
  rw [wp_modify]
  have hk := hi'.mark (newWindow s.winIdCount x y width height owner b)
  refine ⟨⟨hk.wide, hk.high, hk.null, hk.nodup, hk.live, hk.mid, hk.map, .inr (hk.mem hat), hk.top,
    hk.mouse, hk.focused⟩, m, b, newWindow_sized hsize, rfl⟩

/-- Closing clears the focus only. -/
def Globals.unfocus (s : Globals) (p : Word) : Globals :=
  { s with focusedWindow := if p = s.focusedWindow then NULL else s.focusedWindow }

theorem wp_serverWindowClose (h : Inv s) (hat : s.At p w) {E : Fault → Prop} :
    wp E (serverWindowClose w.wid) (fun _ t => ∃ m,
      HashMap.Step (s.changes + 1) s.widsToWindows (.remove w.wid) m ∧
      t = ((s.unfocus p).mark w).closed p m) s := by
  obtain ⟨q, hrun, -, hq⟩ := h.get w.wid
  obtain rfl := hq p w hat.2 rfl
  obtain ⟨spec, hh, -⟩ := h.map
  obtain ⟨-, -, r, m, hm, -⟩ := hh.returns (Nat.lt_succ_self _) w.wid NULL
  rw [serverWindowClose, wp_bind, wp_of_ok hrun, if_neg hat.1, wp_bind, wp_modify]
  change wp _ _ _ (s.unfocus q)
  have hat' : (s.unfocus q).At q w := hat
  rw [wp_bind, wp_markWindow hat', wp_bind, wp_modify, wp_bind]
  refine (wp_window (w := w) ?_).mpr ?_
  · exact hat
  rw [wp_bind, wp_of_ok (onMap_ok (t := m) (a := r) hm), wp_bind, changed, wp_modify,
    Compositor.setWindow, wp_modify]
  exact ⟨m, ⟨r, hm⟩, rfl⟩

/-- A closed window is none of the three that closing does not clear. -/
def Globals.Loose (s : Globals) (wid : Word) : Prop :=
  ∀ p w, s.heap p = some w → w.wid = wid → p ≠ s.topZ ∧ p ≠ s.bottomZ ∧ p ≠ s.mouseWindow

theorem Inv.unfocus (h : Inv s) (hp : p ≠ s.topZ) : s.unfocus p = s := by
  have hf : ¬ p = s.focusedWindow := by
    rw [h.focused]
    exact hp
  rw [Globals.unfocus, if_neg hf]

end Messages

/-! ## Painting -/

section Painting
variable {s : Globals} {p : Word} {w : Window}

/-- Only the picture differs. -/
def Painted (s t : Globals) : Prop := ∃ c, s.ctx.Same c ∧ t = { s with ctx := c }

theorem Painted.refl (s : Globals) : Painted s s := ⟨_, .refl _, rfl⟩

theorem Painted.at {t : Globals} (h : Painted s t) (hp : s.At p w) : t.At p w := by
  obtain ⟨_, _, rfl⟩ := h
  exact hp

theorem Painted.trans {t u : Globals} (h : Painted s t) (h' : Painted t u) : Painted s u := by
  obtain ⟨_, hc, rfl⟩ := h
  obtain ⟨d, hd, rfl⟩ := h'
  exact ⟨d, hc.trans hd, rfl⟩

theorem wp_paint {m : G Unit} (h : ∀ c, wp Drawing m (fun _ d => c.Same d) c) :
    wp Drawing (onGfx m) (fun _ t => Painted s t) s := by
  rw [wp_onGfx]
  exact wp_mono (h s.ctx) fun _ c hc => ⟨c, hc, rfl⟩

theorem wp_drawSprite_same {sp : Sprite} {x y : Int} (c : Context) :
    wp Drawing (drawSprite sp x y) (fun _ d => c.Same d) c := by
  apply wp_mono wp_drawSprite
  rintro _ _ ⟨b, rfl⟩
  exact same_setBackbuffer b

theorem wp_drawFill_same {color : Word} (c : Context) :
    wp Drawing (drawFill color) (fun _ d => c.Same d) c := by
  apply wp_mono wp_drawFill
  rintro _ _ ⟨-, b, rfl⟩
  exact same_setBackbuffer b

/-- Only the clips change. -/
theorem clipDamage_only (s : Globals) :
    ∃ r n, clipDamage s = { s.ctx with clips := r, clipsSize := n } := by
  have hfold : ∀ (l : List DamageRect) (c : Context), ∃ r n,
      l.foldl (fun c r => gfxAddClip r.x r.y (i32 r.width) (i32 r.height) c) c =
        { c with clips := r, clipsSize := n } := by
    intro l
    induction l with
    | nil => exact fun c => ⟨_, _, rfl⟩
    | cons d l ih =>
      intro c
      obtain ⟨r, n, h⟩ := ih (gfxAddClip d.x d.y (i32 d.width) (i32 d.height) c)
      exact ⟨r, n, h⟩
  unfold clipDamage
  simp only
  split
  · obtain ⟨r, n, h⟩ := hfold s.updateList (gfxAddClip s.mouseX s.mouseY MOUSE_WIDTH MOUSE_HEIGHT
      (gfxAddClip s.lastMouseX s.lastMouseY MOUSE_WIDTH MOUSE_HEIGHT (gfxClearClip s.ctx)))
    exact ⟨r, n, h⟩
  · obtain ⟨r, n, h⟩ := hfold s.updateList (gfxClearClip s.ctx)
    exact ⟨r, n, h⟩

theorem same_clipDamage (s : Globals) : s.ctx.Same (clipDamage s) := by
  obtain ⟨r, n, h⟩ := clipDamage_only s
  rw [h]
  exact ⟨rfl, rfl, rfl, rfl⟩

theorem wp_poudlandBlitWindow (h : s.At p w) :
    wp Drawing (poudlandBlitWindow p) (fun _ t => Painted s t) s := by
  rw [poudlandBlitWindow, wp_bind, wp_window h]
  split
  · exact .refl s
  · split
    · exact .refl s
    · exact wp_paint wp_drawSprite_same

theorem wp_blitEach {ps : List Word} (h : ∀ p ∈ ps, ∃ w, s.At p w) :
    wp Drawing (blitEach ps) (fun _ t => Painted s t) s := by
  induction ps generalizing s with
  | nil => exact .refl s
  | cons p ps ih =>
    obtain ⟨w, hw⟩ := h p List.mem_cons_self
    rw [blitEach, wp_bind]
    apply wp_mono (wp_poudlandBlitWindow hw)
    intro _ t ht
    apply wp_mono (ih fun q hq => ?_)
    · exact fun _ u hu => ht.trans hu
    · obtain ⟨v, hv⟩ := h q (List.mem_cons_of_mem _ hq)
      exact ⟨v, ht.at hv⟩

theorem wp_poudlandBlitWindows (h : Inv s) :
    wp Drawing poudlandBlitWindows (fun _ t => Painted s t) s := by
  rw [poudlandBlitWindows, wp_bind, wp_get, wp_bind]
  have hfirst : wp Drawing blitBottom (fun _ t => Painted s t) s := by
    rw [blitBottom, wp_bind, wp_get]
    split
    · exact wp_paint wp_drawFill_same
    · rename_i hn
      obtain ⟨w, hw⟩ := h.listed_at h.bottom hn
      exact wp_poudlandBlitWindow hw
  apply wp_mono hfirst
  intro _ t ht
  rw [wp_bind]
  have hmid : ∀ p ∈ s.midZs, ∃ w, t.At p w := by
    intro p hp
    obtain ⟨w, hw⟩ := h.exists_at (h.mem_midZs.mp hp)
    exact ⟨w, ht.at hw⟩
  apply wp_mono (wp_blitEach hmid)
  intro _ u hu
  have hsu := ht.trans hu
  obtain ⟨c, -, rfl⟩ := id hsu
  rw [blitTop, wp_bind, wp_get]
  split
  · exact hsu
  · rename_i hn
    obtain ⟨w, hw⟩ := h.listed_at h.top hn
    apply wp_mono (wp_poudlandBlitWindow (hsu.at hw))
    exact fun _ v hv => hsu.trans hv

/-- The state that a frame leaves, with the picture `c`. -/
def Globals.redrawn (s : Globals) (c : Context) : Globals :=
  { s with ctx := c, lastMouseX := s.mouseX, lastMouseY := s.mouseY, updateList := [] }

theorem Inv.redrawn (h : Inv s) (c : Context) : Inv (s.redrawn c) :=
  ⟨h.wide, h.high, h.null, h.nodup, h.live, h.mid, h.map, h.bottom, h.top, h.mouse, h.focused⟩

theorem wp_redrawWindows (h : Inv s) :
    wp Drawing redrawWindows (fun _ t => ∃ c, s.ctx.Same c ∧ t = s.redrawn c) s := by
  rw [redrawWindows, wp_bind, wp_modify, wp_bind]
  apply wp_mono (wp_poudlandBlitWindows (h.redrawn (clipDamage s)))
  rintro _ _ ⟨c, hc, rfl⟩
  rw [wp_bind, drawMouse, wp_bind, wp_get]
  apply wp_mono (wp_paint wp_drawSprite_same)
  rintro _ _ ⟨d, hd, rfl⟩
  exact ⟨_, (((same_clipDamage s).trans hc).trans hd).trans same_flip, rfl⟩

end Painting

/-! ## All events -/

/-- The condition on an event under which the pointers stay right. -/
def Event.Safe (s : Globals) : Event → Prop
  | .windowNew _ _ _ _ _ _ win entry => win ≠ NULL ∧ entry ≠ none ∧ s.Unused s.winIdCount
  | .windowMove .. => True
  | .windowClose wid => s.Loose wid
  | .mouse dx dy buttons =>
    s.Aimed (s.clampX dx).2 (s.clampY dy).2 (s.isMove dx dy) buttons
  | .redraw => True

/-- What an event does to the windows. -/
def Outcome (s : Globals) : Event → Globals → Prop
  | .windowNew x y width height _ source win _, t => ∃ m b,
    (newWindow s.winIdCount x y width height source b).Sized ∧
    Idle (s.created win m (newWindow s.winIdCount x y width height source b)) t
  | .windowMove .., t => t = s ∨ ∃ p w x y, IsInt x ∧ IsInt y ∧ s.At p w ∧ t = s.moved p w x y
  | .windowClose wid, t => t = s ∨ ∃ p w m, s.At p w ∧ w.wid = wid ∧ t = (s.mark w).closed p m
  | .mouse dx dy buttons, t => MouseDone s (s.clampX dx).2 (s.clampY dy).2 buttons t
  | .redraw, t => ∃ c, s.ctx.Same c ∧ t = s.redrawn c

section Events
variable {s t : Globals} {x y : Int} {buttons : Word}

theorem MouseDone.inv (h : Inv s) (ht : MouseDone s x y buttons t) : Inv t := by
  rcases ht with hi | ⟨w, -, -, hw, hi⟩ | ⟨p, w, x', y', -, -, hw, hi⟩
  · exact hi.inv h
  · exact hi.inv (h.focus hw)
  · exact hi.inv (h.moved hw _ _)

/-- A created window is the bottom window and the last of the regular ones. -/
theorem Outcome.created {px py width height color source win : Word} {entry : Option Addr}
    (ho : Outcome s (.windowNew px py width height color source win entry) t) (hwin : win ≠ NULL) :
    (∃ b, t.At win (newWindow s.winIdCount px py width height source b)) ∧ t.bottomZ = win ∧
      t.topZ = s.topZ ∧ t.midZs = s.midZs ++ [win] ∧ t.width = s.width ∧ t.height = s.height := by
  obtain ⟨m, b, -, _, _, _, _, _, _, _, -, rfl⟩ := ho
  exact ⟨⟨b, hwin, Function.update_self ..⟩, rfl, rfl, rfl, rfl, rfl⟩

theorem wp_mouseHandler (h : Inv s) {dx dy : Int}
    (ha : s.Aimed (s.clampX dx).2 (s.clampY dy).2 (s.isMove dx dy) buttons) :
    wp Drawing (mouseHandler dx dy buttons)
      (fun _ t => MouseDone s (s.clampX dx).2 (s.clampY dy).2 buttons t) s := by
  rw [mouseHandler, wp_bind, wp_get, wp_bind, wp_modify]
  have hidle : Idle s { s with mouseX := (s.clampX dx).1, mouseY := (s.clampY dy).1 } := by
    refine ⟨_, _, _, _, _, _, _, ⟨.inr ?_, .inr ?_, .inl rfl⟩, rfl⟩
    · exact clamp_near (isInt_i32 _) (by decide) h.wide
    · exact clamp_near (isInt_i32 _) (by decide) h.high
  apply wp_mono (wp_mouseAction (hidle.inv h) (h.clampX dx) (h.clampY dy) ha)
  rintro _ t (ht | ⟨w, hl, hms, hw, ht⟩ | ⟨p, w, x', y', hx', hy', hw, ht⟩)
  · exact .inl (hidle.trans ht)
  · exact .inr (.inl ⟨w, hl, hms, hw, hidle.focus.trans ht⟩)
  · exact .inr (.inr ⟨p, w, x', y', hx', hy', hw, hidle.moved.trans ht⟩)

/-- A safe event does not touch a window that is not there. -/
theorem wp_handle (h : Inv s) {e : Event} (hf : e.Fresh s) (hs : e.Safe s) :
    wp Drawing (handle e) (fun _ t => Inv t ∧ Outcome s e t) s := by
  cases e with
  | windowNew x y width height color source win entry =>
    obtain ⟨hwin, hentry, hu⟩ := hs
    obtain ⟨a, rfl⟩ := Option.ne_none_iff_exists'.mp hentry
    rw [handle, wp_bind]
    apply wp_mono (wp_quickCreateWindow h hwin (hf.1.resolve_left hwin) (hf.2 a rfl) hu)
    rintro _ t ⟨ht, m, b, hsize, rfl⟩
    have hat := Globals.opened_at (s := s) (m := m)
      (w := newWindow s.winIdCount x y width height source b) hwin
    rw [wp_bind]
    refine (wp_window (w := newWindow s.winIdCount x y width height source b) ?_).mpr ?_
    · exact hat
    rw [wp_modify]
    refine ⟨Idle.inv ?_ ht, m, b, hsize, ?_⟩
    · exact ⟨_, _, _, _, _, _, _, ⟨.inl rfl, .inl rfl, .inl rfl⟩, rfl⟩
    · exact ⟨_, _, _, _, _, _, _, ⟨.inl rfl, .inl rfl, .inl rfl⟩, rfl⟩
  | windowMove wid x y =>
    rw [handle, wp_bind, wp_get]
    split
    · exact ⟨h, .inl rfl⟩
    · obtain ⟨p, hrun, hp, -⟩ := h.get wid
      rw [wp_bind, wp_of_ok hrun]
      split
      · exact ⟨h, .inl rfl⟩
      · rename_i hn
        obtain ⟨w, hw⟩ := h.listed_at hp hn
        rw [wp_windowMove hw]
        exact ⟨h.moved hw _ _, .inr ⟨p, w, _, _, isInt_toInt x, isInt_toInt y, hw, rfl⟩⟩
  | windowClose wid =>
    obtain ⟨b, hrun, hb⟩ := h.has wid
    rw [handle, wp_bind, wp_of_ok hrun]
    cases b with
    | false => exact ⟨h, .inl rfl⟩
    | true =>
      obtain ⟨p, w, hw, rfl⟩ := hb.mp rfl
      obtain ⟨_, hat⟩ := h.exists_at ((h.live p).mpr ⟨w, hw⟩)
      obtain rfl := Option.some.inj (hw.symm.trans hat.2)
      obtain ⟨ht, hb, hg⟩ := hs p w hw rfl
      rw [if_pos rfl]
      apply wp_mono (wp_serverWindowClose h hat)
      rintro _ t ⟨m, hm, rfl⟩
      rw [h.unfocus ht]
      have hat' : (s.mark w).At p w := hat
      exact ⟨(h.mark w).closed hat' ht hb hg hm, .inr ⟨p, w, m, hat, rfl, rfl⟩⟩
  | mouse dx dy buttons =>
    apply wp_mono (wp_mouseHandler h hs)
    exact fun _ t ht => ⟨ht.inv h, ht⟩
  | redraw =>
    apply wp_mono (wp_redrawWindows h)
    rintro _ _ ⟨c, hc, rfl⟩
    exact ⟨h.redrawn c, c, hc, rfl⟩

end Events

end Frog.Compositor
