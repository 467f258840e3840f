import Frog.Compositor.PointerRuns
import Frog.Compositor.Pixels

/-!
# Painting the windows

`poudland_blit_windows` is one sequence of writes. The windows that clients can create have sizes
that a sprite can hold, since `draw_fill` has filled them.
-/

set_option autoImplicit false

namespace Frog.Compositor

open Prog Painter HashMap

/-! ## Sizes -/

def Globals.Sized (s : Globals) : Prop := ∀ p w, s.heap p = some w → w.Sized

section Sizes
variable {s t : Globals} {p : Word} {w v : Window}

theorem Globals.Sized.setWindow (h : s.Sized) (hv : v.Sized) : (s.setWindow p v).Sized := by
  intro q u hu
  change Function.update s.heap p (some v) q = some u at hu
  rw [Function.update_apply] at hu
  split at hu
  · obtain rfl := Option.some.inj hu
    exact hv
  · exact h q u hu

theorem Globals.Sized.moved (h : s.Sized) (hw : s.At p w) {x y : Int} (hx : IsInt x)
    (hy : IsInt y) : (s.moved p w x y).Sized := by
  have hs := h p w hw.2
  exact h.setWindow (v := w.place x y) ⟨hx, hy, hs.height, hs.width, hs.opaqued⟩

theorem Globals.Sized.focus (h : s.Sized) : (s.focus p w).Sized := by
  rw [Globals.focus]
  split
  · exact h
  · exact h

theorem Idle.sized (h : Idle s t) (hs : s.Sized) : t.Sized := by
  obtain ⟨_, _, _, _, _, _, _, -, rfl⟩ := h
  exact hs

theorem Outcome.sized {e : Event} (hs : s.Sized) (h : Outcome s e t) : t.Sized := by
  cases e with
  | windowNew x y width height color source win entry =>
    obtain ⟨m, b, hsize, hi⟩ := h
    exact hi.sized (hs.setWindow (p := win) hsize)
  | windowMove wid x y =>
    rcases h with rfl | ⟨p, w, x', y', hx, hy, hw, rfl⟩
    · exact hs
    · exact hs.moved hw hx hy
  | windowClose wid =>
    rcases h with rfl | ⟨p, w, m, -, -, rfl⟩
    · exact hs
    · intro q u hu
      change Function.update s.heap p none q = some u at hu
      rw [Function.update_apply] at hu
      split at hu
      · cases hu
      · exact hs q u hu
  | mouse dx dy buttons =>
    rcases h with hi | ⟨w, -, -, -, hi⟩ | ⟨p, w, x', y', hx, hy, hw, hi⟩
    · exact hi.sized hs
    · exact hi.sized hs.focus
    · exact hi.sized (hs.moved hw hx hy)
  | redraw =>
    obtain ⟨c, -, rfl⟩ := h
    exact hs

theorem Screen.background_sized (v : Screen) (b : Int → Word) : (v.background b).Sized := by
  have hw := v.width_ge
  have hh := v.height_ge
  have hwl := v.width_lt
  have hhl := v.height_lt
  refine ⟨?_, ?_, ?_, ?_, rfl, rfl⟩ <;> simp only [Screen.background, IsInt] <;> omega

/-- The screen in the context. -/
def Globals.Real (s : Globals) : Prop :=
  s.ctx.Real ∧ s.ctx.width = s.width ∧ s.ctx.height = s.height

theorem Context.Same.real {c d : Context} (h : c.Same d) (hc : c.Real) : d.Real := by
  obtain ⟨hw, hh, hp, hs⟩ := h
  refine ⟨⟨?_, ?_, ?_⟩, ?_, ?_, ?_, ?_⟩
  · rw [hw]
    exact hc.width_nonneg
  · rw [hw, hp]
    exact hc.width_le
  · rw [hp, hh, hs]
    exact hc.fits
  · rw [hw]
    exact hc.width_pos
  · rw [hh]
    exact hc.height_pos
  · rw [hw]
    exact hc.width_lt
  · rw [hh]
    exact hc.height_lt

theorem Idle.real (h : Idle s t) (hs : s.Real) : t.Real := by
  obtain ⟨_, _, _, _, _, _, _, -, rfl⟩ := h
  exact hs

theorem Outcome.real {e : Event} (hs : s.Real) (h : Outcome s e t) : t.Real := by
  cases e with
  | windowNew x y width height color source win entry =>
    obtain ⟨m, b, hsize, hi⟩ := h
    refine hi.real ?_
    exact hs
  | windowMove wid x y =>
    rcases h with rfl | ⟨p, w, x', y', hx, hy, hw, rfl⟩
    · exact hs
    · exact hs
  | windowClose wid =>
    rcases h with rfl | ⟨p, w, m, -, -, rfl⟩
    · exact hs
    · exact hs
  | mouse dx dy buttons =>
    rcases h with hi | ⟨w, -, -, -, hi⟩ | ⟨p, w, x', y', hx, hy, hw, hi⟩
    · exact hi.real hs
    · refine hi.real ?_
      rw [Globals.focus]
      split <;> exact hs
    · refine hi.real ?_
      exact hs
  | redraw =>
    obtain ⟨c, hc, rfl⟩ := h
    exact ⟨hc.real hs.1, hc.width.trans hs.2.1, hc.height.trans hs.2.2⟩

theorem Started.real (h : Started s) : s.Sized ∧ s.Real := by
  obtain ⟨v, buffer, backbuffer, cursor, bg, a, -, hbg, hrun⟩ := h
  obtain ⟨-, m, b, -, rfl⟩ := wp_ok (wp_openBackground hbg) hrun
  have hw := v.width_ge
  have hh := v.height_ge
  constructor
  · intro p w hp
    change Function.update (fun _ => none) bg (some (v.background b)) p = some w at hp
    rw [Function.update_apply] at hp
    split at hp
    · obtain rfl := Option.some.inj hp
      exact v.background_sized b
    · cases hp
  · refine ⟨⟨⟨?_, v.width_le, le_refl _⟩, ?_, ?_, v.width_lt, v.height_lt⟩, rfl, rfl⟩
    all_goals
      simp only [Screen.initial, Globals.mark, Globals.opened]
      omega

end Sizes

/-! ## The writes of the windows -/

/-- What a window paints. -/
def Window.writes (c : Context) (w : Window) : List (Int × (Word → Word)) :=
  if w.hidden || w.minimized then []
  else if w.opacity ≠ 255 then []
  else spriteWrites c (windowSprite w) w.x w.y

/-- The window is shown and the point is one of its pixels. -/
def Window.Shows (w : Window) (x y : Int) : Prop :=
  (w.hidden = false ∧ w.minimized = false) ∧
    (w.x ≤ x ∧ x < w.x + w.width) ∧ w.y ≤ y ∧ y < w.y + w.height

instance (w : Window) (x y : Int) : Decidable (w.Shows x y) :=
  inferInstanceAs (Decidable (_ ∧ _))

def Window.color (w : Window) (x y : Int) : Word :=
  (windowSprite w).pixel (x - w.x) (y - w.y) ||| 0xFF000000

def Globals.windowWrites (s : Globals) (p : Word) : List (Int × (Word → Word)) :=
  match s.heap p with
  | some w => w.writes s.ctx
  | none => []

/-- The windows from the lowest to the topmost one. -/
def Globals.stack (s : Globals) : List Word := s.midZs ++ if s.topZ = NULL then [] else [s.topZ]

/-- The windows in the order in which they are painted. -/
def Globals.paintOrder (s : Globals) : List Word :=
  (if s.bottomZ = NULL then [] else [s.bottomZ]) ++ s.stack

/-- The writes before those of the windows. -/
def Globals.backgroundWrites (s : Globals) : List (Int × (Word → Word)) :=
  if s.bottomZ = NULL then solid s.ctx 0 0 s.ctx.width s.ctx.height FSK_DARK_CYAN else []

section Window
variable {w : Window} {c : Context} {x y : Int}

theorem windowSprite_has (h : w.Sized) :
    (windowSprite w).Has w.x w.y x y ↔
      (w.x ≤ x ∧ x < w.x + w.width) ∧ w.y ≤ y ∧ y < w.y + w.height := by
  have hh := h.height
  have hw := h.width
  simp only [Sprite.Has, windowSprite, u16]
  omega

theorem Window.Sized.writes (h : w.Sized) : w.writes c =
    if w.hidden = false ∧ w.minimized = false then spriteWrites c (windowSprite w) w.x w.y
    else [] := by
  rw [Window.writes, h.opaqued.1]
  cases w.hidden <;> cases w.minimized <;> rfl

/-- The pixels of the screen that a window writes, unless its first column wraps. -/
theorem any_writes (hc : c.Real) (h : w.Sized) (hx : -65536 < w.x) (hpx : 0 ≤ x ∧ x < c.width)
    (hpy : 0 ≤ y ∧ y < c.height) :
    (∃ e ∈ w.writes c, e.1 = c.index x y) ↔ isInClip c y = true ∧ w.Shows x y := by
  rw [h.writes, Window.Shows]
  split
  · rename_i hs
    rw [any_spriteWrites (s := windowSprite w) hc.proper h.x h.y hx hpx hpy, windowSprite_has h]
    exact and_congr_right fun _ => (and_iff_right hs).symm
  · rename_i hs
    constructor
    · rintro ⟨e, he, -⟩
      cases he
    · exact fun hs' => absurd hs'.2.1 hs

theorem writeAll_writes (hc : c.Real) (h : w.Sized) (hx : -65536 < w.x)
    (hpx : 0 ≤ x ∧ x < c.width) (hpy : 0 ≤ y ∧ y < c.height) (b : Int → Word) :
    writeAll (w.writes c) b (c.index x y) =
      if isInClip c y = true ∧ w.Shows x y then w.color x y else b (c.index x y) := by
  rw [h.writes]
  by_cases hs : w.hidden = false ∧ w.minimized = false
  · rw [if_pos hs, writeAll_spriteWrites (s := windowSprite w) hc.proper h.x h.y hx hpx hpy]
    have hiff : (isInClip c y = true ∧ (windowSprite w).Has w.x w.y x y) ↔
        isInClip c y = true ∧ w.Shows x y := by
      rw [windowSprite_has h, Window.Shows]
      exact and_congr_right fun _ => (and_iff_right hs).symm
    have hput : ∀ old, spritePut (windowSprite w) (x - w.x) (y - w.y) old = w.color x y :=
      fun _ => rfl
    simp only [hiff, hput]
  · rw [if_neg hs, if_neg fun hn => hs hn.2.1, writeAll_nil]

end Window

section Blit
variable {s : Globals} {p : Word} {w : Window}

theorem Inv.mem_stack (h : Inv s) (hp : p ∈ s.stack) : p ∈ s.windows := by
  rcases List.mem_append.mp hp with hp | hp
  · exact h.mem_midZs.mp hp
  · split at hp
    · cases hp
    · rename_i hn
      obtain rfl := List.mem_singleton.mp hp
      exact h.top.resolve_left hn

/-- Two sequences of writes are one. -/
theorem put_append {ws vs : List (Int × (Word → Word))} {c : Context} :
    put (ws ++ vs) c = (put ws >>= fun _ => put vs) c := by
  induction ws generalizing c with
  | nil => rfl
  | cons w ws ih =>
    rw [List.cons_append, put, put]
    by_cases hw : 0 ≤ w.1 ∧ w.1 < c.size
    · simp only [bind_apply, get_apply, check, if_pos hw, pure_apply, modify_apply, ih]
    · simp only [bind_apply, get_apply, check, if_neg hw, stop_apply]

theorem onGfx_put_append {ws vs : List (Int × (Word → Word))} :
    onGfx (put (ws ++ vs)) s = (onGfx (put ws) >>= fun _ => onGfx (put vs)) s := by
  rw [onGfx, put_append, bind_apply, bind_apply, onGfx]
  cases put ws s.ctx <;> rfl

/-- Writes change the back buffer only. -/
theorem onGfx_put_ok {ws : List (Int × (Word → Word))} {t : Globals} {u : Unit}
    (h : onGfx (put ws) s = .ok (u, t)) :
    ∃ b, t = { s with ctx := { s.ctx with backbuffer := b } } := by
  have hw : wp Drawing (onGfx (put ws)) (fun _ t => ∃ b,
      t = { s with ctx := { s.ctx with backbuffer := b } }) s := by
    rw [wp_onGfx]
    apply wp_mono wp_put
    rintro _ _ ⟨b, rfl⟩
    exact ⟨b, rfl⟩
  exact wp_ok hw h

theorem Globals.At.windowWrites (h : s.At p w) : s.windowWrites p = w.writes s.ctx := by
  rw [Globals.windowWrites, h.2]

theorem poudlandBlitWindow_eq (h : s.At p w) :
    poudlandBlitWindow p s = onGfx (put (s.windowWrites p)) s := by
  have hread : window p s = .ok (w, s) := run_eq_of_wp ((wp_window h).mpr ⟨rfl, rfl⟩)
  rw [poudlandBlitWindow, bind_ok hread, h.windowWrites, Window.writes]
  split
  · rfl
  · split <;> rfl

theorem blitEach_eq {ps : List Word} (h : ∀ p ∈ ps, ∃ w, s.At p w) :
    blitEach ps s = onGfx (put (ps.flatMap s.windowWrites)) s := by
  induction ps generalizing s with
  | nil => rfl
  | cons p ps ih =>
    obtain ⟨w, hw⟩ := h p List.mem_cons_self
    rw [blitEach, List.flatMap_cons, onGfx_put_append, bind_apply, bind_apply,
      poudlandBlitWindow_eq hw]
    cases hp : onGfx (put (s.windowWrites p)) s with
    | error f => rfl
    | ok r =>
      obtain ⟨u, t⟩ := r
      obtain ⟨b, rfl⟩ := onGfx_put_ok hp
      exact ih fun q hq => h q (List.mem_cons_of_mem _ hq)

/-- The background and then the windows, in one sequence of writes. -/
theorem poudlandBlitWindows_eq (h : Inv s) (hr : s.Real) : poudlandBlitWindows s =
    onGfx (put (s.backgroundWrites ++ s.paintOrder.flatMap s.windowWrites)) s := by
  have hbottom : blitBottom s = onGfx (put (s.backgroundWrites ++
      (if s.bottomZ = NULL then [] else [s.bottomZ]).flatMap s.windowWrites)) s := by
    rw [blitBottom, bind_ok (get_apply s), Globals.backgroundWrites]
    split
    · have hfill : drawFill FSK_DARK_CYAN s.ctx =
          put (solid s.ctx 0 0 s.ctx.width s.ctx.height FSK_DARK_CYAN) s.ctx := by
        rw [drawFill, bind_ok (get_apply s.ctx)]
        exact bind_ok (a := ()) (check_eq_ok.mpr ⟨⟨hr.1.height_lt, .inl hr.1.width_lt⟩, rfl⟩)
      rw [List.flatMap_nil, List.append_nil, onGfx, hfill, ← onGfx]
    · rename_i hn
      obtain ⟨w, hw⟩ := h.listed_at h.bottom hn
      rw [List.flatMap_singleton, List.nil_append, poudlandBlitWindow_eq hw]
  have htop : ∀ b, blitTop { s with ctx := { s.ctx with backbuffer := b } } =
      onGfx (put ((if s.topZ = NULL then [] else [s.topZ]).flatMap s.windowWrites))
        { s with ctx := { s.ctx with backbuffer := b } } := by
    intro b
    rw [blitTop, bind_ok (get_apply _)]
    split
    · rfl
    · rename_i hn
      obtain ⟨w, hw⟩ := h.listed_at h.top hn
      rw [List.flatMap_singleton]
      exact poudlandBlitWindow_eq (w := w) hw
  have hmid : ∀ b, blitEach s.midZs { s with ctx := { s.ctx with backbuffer := b } } =
      onGfx (put (s.midZs.flatMap s.windowWrites))
        { s with ctx := { s.ctx with backbuffer := b } } := fun b =>
    blitEach_eq fun p hp => h.exists_at (h.mem_midZs.mp hp)
  rw [Globals.paintOrder, Globals.stack, List.flatMap_append, List.flatMap_append,
    ← List.append_assoc, onGfx_put_append, poudlandBlitWindows, bind_ok (get_apply s), bind_apply,
    bind_apply, hbottom]
  cases hp : onGfx (put (s.backgroundWrites ++
      (if s.bottomZ = NULL then [] else [s.bottomZ]).flatMap s.windowWrites)) s with
  | error f => rfl
  | ok r =>
    obtain ⟨u, t⟩ := r
    obtain ⟨b, rfl⟩ := onGfx_put_ok hp
    simp only
    rw [onGfx_put_append, bind_apply, bind_apply, hmid b]
    cases hp' : onGfx (put (s.midZs.flatMap s.windowWrites))
        { s with ctx := { s.ctx with backbuffer := b } } with
    | error f => rfl
    | ok r =>
      obtain ⟨u', t'⟩ := r
      obtain ⟨b', rfl⟩ := onGfx_put_ok hp'
      exact htop b'

end Blit

end Frog.Compositor
