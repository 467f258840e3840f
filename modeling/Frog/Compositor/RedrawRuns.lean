import Frog.Compositor.HitTest
import Frog.Compositor.Redraw

/-!
# Runs of frames

Between two frames the screen shows the picture in every row that is not marked, with the cursor of
the last frame. An event keeps this when the change of the focus uncovers nothing, and a frame brings
the marked rows up to date when there is no bottom window or the windows cover them.
-/

set_option autoImplicit false

namespace Frog.Compositor

open Prog Painter HashMap

/-! ## Events between two frames -/

/-- What no event but a frame changes. -/
structure Kept (s t : Globals) : Prop where
  ctx : t.ctx = s.ctx
  width : t.width = s.width
  height : t.height = s.height
  lastMouseX : t.lastMouseX = s.lastMouseX
  lastMouseY : t.lastMouseY = s.lastMouseY
  mouseSprite : t.mouseSprite = s.mouseSprite
  mouseX : t.mouseX = s.mouseX ∨ Near t.mouseX
  mouseY : t.mouseY = s.mouseY ∨ Near t.mouseY

section Kept
variable {s t u : Globals} {p : Word} {w : Window} {e : Event}

theorem Kept.of_eq (hc : t.ctx = s.ctx) (hw : t.width = s.width) (hh : t.height = s.height)
    (hx : t.lastMouseX = s.lastMouseX) (hy : t.lastMouseY = s.lastMouseY)
    (hs : t.mouseSprite = s.mouseSprite) (hmx : t.mouseX = s.mouseX) (hmy : t.mouseY = s.mouseY) :
    Kept s t := ⟨hc, hw, hh, hx, hy, hs, .inl hmx, .inl hmy⟩

theorem Kept.refl (s : Globals) : Kept s s := .of_eq rfl rfl rfl rfl rfl rfl rfl rfl

theorem Kept.idle (h : Kept s t) (hi : Idle t u) : Kept s u := by
  obtain ⟨mx, my, _, _, _, _, _, ⟨hx, hy, -⟩, rfl⟩ := hi
  refine ⟨h.ctx, h.width, h.height, h.lastMouseX, h.lastMouseY, h.mouseSprite, ?_, ?_⟩
  · rcases hx with rfl | hx
    · exact h.mouseX
    · exact .inr hx
  · rcases hy with rfl | hy
    · exact h.mouseY
    · exact .inr hy

theorem kept_focus : Kept s (s.focus p w) := by
  rw [Globals.focus]
  split <;> exact .of_eq rfl rfl rfl rfl rfl rfl rfl rfl

theorem kept_moved {x y : Int} : Kept s (s.moved p w x y) :=
  .of_eq rfl rfl rfl rfl rfl rfl rfl rfl

theorem Outcome.kept (h : Outcome s e t) (he : e ≠ .redraw) : Kept s t := by
  cases e with
  | windowNew x y width height color source win entry =>
    obtain ⟨m, b, -, hi⟩ := h
    have hk : Kept s (s.created win m (newWindow s.winIdCount x y width height source b)) :=
      .of_eq rfl rfl rfl rfl rfl rfl rfl rfl
    exact hk.idle hi
  | windowMove wid x y =>
    rcases h with rfl | ⟨p, w, x', y', -, -, -, rfl⟩
    · exact .refl _
    · exact kept_moved
  | windowClose wid =>
    rcases h with rfl | ⟨p, w, m, -, -, rfl⟩
    · exact .refl _
    · exact .of_eq rfl rfl rfl rfl rfl rfl rfl rfl
  | mouse dx dy buttons =>
    rcases h with hi | ⟨w, -, -, -, hi⟩ | ⟨p, w, x', y', -, -, -, hi⟩
    · exact (Kept.refl s).idle hi
    · exact kept_focus.idle hi
    · exact kept_moved.idle hi
  | redraw => exact absurd rfl he

end Kept

/-! ## The condition on events -/

/-- Some window is shown at the point. -/
def Globals.Shown (s : Globals) (x y : Int) : Prop :=
  ∃ p ∈ s.stack, ∃ w, s.At p w ∧ w.Shows x y

/-- Every pixel that the next frame repaints gets the background or a window. -/
def Globals.Filled (s : Globals) : Prop :=
  s.bottomZ = NULL ∨ ∀ x y, s.OnScreen x y → isInClip (clipDamage s) y = true → s.Shown x y

/-- A new focus uncovers nothing, and a frame paints over everything that it repaints. -/
def Event.Repaints (s : Globals) : Event → Prop
  | .mouse dx dy buttons =>
    isLeft buttons = true → s.mouseState ≠ .dragging →
      ∀ w, s.At (s.topOf (u32 (s.clampX dx).2) (u32 (s.clampY dy).2)) w → 1 < w.wid →
        s.Undisturbed (s.topOf (u32 (s.clampX dx).2) (u32 (s.clampY dy).2)) w
  | .redraw => s.Straight ∧ s.Filled
  | _ => True

/-- The steps of safe events that meet the condition. -/
abbrev RepaintStep : Globals → Event → Globals → Prop :=
  Guarded (fun s e => e.Safe s ∧ e.Repaints s) Step

theorem Outcome.sameRows {s t : Globals} {e : Event} (hi : Inv s) (hr : s.Real) (hs : s.Sized)
    (hf : e.Fresh s) (hsafe : e.Safe s) (hok : e.Repaints s) (h : Outcome s e t)
    (he : e ≠ .redraw) : s.SameRows t := by
  cases e with
  | windowNew x y width height color source win entry =>
    obtain ⟨m, b, hsize, hidle⟩ := h
    exact (sameRows_created hi hr hsize (hf.1.resolve_left hsafe.1) m).idle hidle
  | windowMove wid x y =>
    rcases h with rfl | ⟨p, w, x', y', hx, hy, hw, rfl⟩
    · exact .refl _
    · exact sameRows_moved hr hs hw hx hy
  | windowClose wid =>
    rcases h with rfl | ⟨p, w, m, hw, -, rfl⟩
    · exact .refl _
    · exact sameRows_closed hr hs hw m
  | mouse dx dy buttons =>
    rcases h with hidle | ⟨w, hl, hms, hw, hidle⟩ | ⟨p, w, x', y', hx, hy, hw, hidle⟩
    · exact (Globals.SameRows.refl s).idle hidle
    · exact (sameRows_focus hi hr hs hw (hok hl hms w hw)).idle hidle
    · exact (sameRows_moved hr hs hw hx hy).idle hidle
  | redraw => exact absurd rfl he

/-! ## The invariant -/

/-- The screen shows the whole picture under the cursor at `(mx, my)`. -/
def Globals.Whole (s : Globals) : Prop :=
  ∀ x y, s.OnScreen x y →
    s.ctx.buffer (s.ctx.index x y) = s.frame s.mouseX s.mouseY x y

structure Tracked (s : Globals) : Prop where
  inv : Inv s
  real : s.Real
  sized : s.Sized
  clipped : s.ctx.Clipped
  mouse : Near s.mouseX ∧ Near s.mouseY
  last : Near s.lastMouseX ∧ Near s.lastMouseY
  cursor : s.mouseSprite.alpha = .embedded ∧ s.mouseSprite.height ≤ MOUSE_HEIGHT
  clean : ∀ x y, s.OnScreen x y → ¬ s.Marked y →
    s.ctx.buffer (s.ctx.index x y) = s.frame s.lastMouseX s.lastMouseY x y

section Tracked
variable {s t : Globals} {e : Event}

theorem Near.isInt {n : Int} (h : Near n) : IsInt n := by
  unfold Near at h
  unfold IsInt
  omega

theorem Tracked.kept (h : Tracked s) (hi : Inv t) (hr : t.Real) (hs : t.Sized) (hk : Kept s t)
    (hrows : s.SameRows t) : Tracked t := by
  obtain ⟨hc, hw, hh, hlx, hly, hms, hmx, hmy⟩ := hk
  refine ⟨hi, hr, hs, hc ▸ h.clipped, ⟨?_, ?_⟩, ?_, hms ▸ h.cursor, ?_⟩
  · rcases hmx with he | hn
    · exact he ▸ h.mouse.1
    · exact hn
  · rcases hmy with he | hn
    · exact he ▸ h.mouse.2
    · exact hn
  · rw [hlx, hly]
    exact h.last
  · intro x y hxy hn
    have hxy' : s.OnScreen x y := by
      unfold Globals.OnScreen at hxy ⊢
      rwa [← hw, ← hh]
    obtain ⟨hn', hpic⟩ := hrows x y hxy' hn
    rw [hc, hlx, hly, h.clean x y hxy' hn', Globals.frame, Globals.frame, hpic,
      Globals.cursor, Globals.cursor, hms]

/-- The cursor is only in the rows that a moved mouse clips in. -/
theorem Tracked.cursor_eq (h : Tracked s) {x y : Int} (hy : 0 ≤ y ∧ y < s.ctx.height)
    (hn : ¬ isInClip (clipDamage s) y = true) (old : Word) :
    s.cursor s.lastMouseX s.lastMouseY x y old = s.cursor s.mouseX s.mouseY x y old := by
  by_cases hmoved : s.MouseMoved
  · obtain ⟨-, hheight⟩ := h.cursor
    have hm := h.mouse.2
    have hl := h.last.2
    unfold Near at hm hl
    have hclip := isInClip_of_cursor h.clipped hy hmoved
    have hband : MOUSE_HEIGHT = 64 := rfl
    rw [hband] at hheight hclip
    have hout : ∀ mx my, (my = s.lastMouseY ∨ my = s.mouseY) →
        s.cursor mx my x y old = old := by
      intro mx my hmy
      rw [Globals.cursor, if_neg]
      rintro ⟨-, hlow, hhigh⟩
      refine hn (hclip ?_)
      rw [i32_of_small (by omega) (by omega), i32_of_small (by omega) (by omega)]
      rcases hmy with rfl | rfl
      · exact .inl ⟨by omega, by omega⟩
      · exact .inr ⟨by omega, by omega⟩
    rw [hout _ _ (.inl rfl), hout _ _ (.inr rfl)]
  · unfold Globals.MouseMoved at hmoved
    obtain ⟨hx, hy⟩ := not_or.mp hmoved
    rw [not_not.mp hx, not_not.mp hy]

/-- After a frame the screen shows the whole picture. -/
theorem Tracked.redraw (h : Tracked s) (hok : Event.Repaints s .redraw) :
    ∃ t, handle .redraw s = .ok ((), t) ∧ Tracked t ∧ t.Whole := by
  obtain ⟨hst, hfill⟩ := hok
  obtain ⟨c, hrun, hsame, hclips, hsize, hpix⟩ := redraw_pixel h.inv h.real h.sized hst h.cursor.1
    ⟨h.mouse.1.isInt, h.mouse.2.isInt⟩
  have hwhole : (s.redrawn c).Whole := by
    intro x y hxy
    have hxy : s.OnScreen x y := hxy
    have hy : 0 ≤ y ∧ y < s.ctx.height := h.real.2.2 ▸ hxy.2
    have hindex : (s.redrawn c).ctx.index x y = s.ctx.index x y := by
      rw [Context.index, Context.index, Globals.redrawn, hsame.pitch]
    rw [hindex]
    change c.buffer _ = s.frame s.mouseX s.mouseY x y
    rw [hpix x y hxy, Globals.frame, picture_eq]
    by_cases hclip : isInClip (clipDamage s) y = true
    · rw [if_pos hclip]
      congr 1
      rcases hfill with hb | hshown
      · rw [if_pos hb]
      · obtain ⟨p, hp, w, hw, hws⟩ := hshown x y hxy hclip
        have hsome : topmost (s.layer x y) s.stack ≠ none := by
          intro hnone
          have hpnone := topmost_eq_none.mp hnone p hp
          rw [layer_at hw, if_pos hws] at hpnone
          cases hpnone
        obtain ⟨color, hcolor⟩ := Option.ne_none_iff_exists'.mp hsome
        rw [hcolor, Option.getD_some, Option.getD_some]
    · -- the row is neither marked nor in a band of the cursor
      rw [if_neg hclip, h.clean x y hxy fun hm => hclip (isInClip_of_marked h.clipped hy hm),
        Globals.frame, picture_eq]
      exact h.cursor_eq hy hclip _
  refine ⟨s.redrawn c, hrun, ⟨h.inv.redrawn c, ?_, h.sized, ?_, h.mouse, h.mouse, h.cursor, ?_⟩,
    hwhole⟩
  · exact ⟨hsame.real h.real.1, hsame.width.trans h.real.2.1, hsame.height.trans h.real.2.2⟩
  · have hc := clipped_clipDamage h.clipped
    intro hn
    change c.clips ≠ none at hn
    change c.clipsSize = c.height
    rw [hsize, hsame.height, ← (same_clipDamage s).height]
    exact hc (hclips ▸ hn)
  · exact fun x y hxy _ => hwhole x y hxy

theorem Tracked.step (h : Tracked s) (hok : e.Safe s ∧ e.Repaints s) (hst : Step s e t) :
    Tracked t := by
  by_cases he : e = .redraw
  · subst he
    obtain ⟨u, hu, ht, -⟩ := h.redraw hok.2
    cases hst.2.symm.trans hu
    exact ht
  · obtain ⟨hi, ho⟩ := wp_ok (wp_handle h.inv hst.1 hok.1) hst.2
    exact h.kept hi (ho.real h.real) (ho.sized h.sized) (ho.kept he)
      (ho.sameRows h.inv h.real h.sized hst.1 hok.1 hok.2 he)

/-- At the start every row is marked. -/
theorem Started.tracked (h : Started s) (hc : s.mouseSprite.height ≤ MOUSE_HEIGHT) :
    Tracked s := by
  have hinv := h.inv
  obtain ⟨hsized, hreal⟩ := h.real
  obtain ⟨v, buffer, backbuffer, cursor, bg, a, hcur, hbg, hrun⟩ := h
  obtain ⟨-, m, b, -, rfl⟩ := wp_ok (wp_openBackground hbg) hrun
  have hnear : Near 0 := by
    unfold Near
    omega
  refine ⟨hinv, hreal, hsized, fun hn => absurd rfl hn, ⟨hnear, hnear⟩, ⟨hnear, hnear⟩,
    ⟨hcur, hc⟩, fun x y hxy hn => ?_⟩
  refine absurd ?_ hn
  have hshow : (v.background b).Shows x y := by
    refine ⟨⟨rfl, rfl⟩, ?_, ?_⟩
    · simp only [Screen.background, zero_add]
      exact hxy.1
    · simp only [Screen.background, zero_add]
      exact hxy.2
  exact damage_covers (v.background_sized b) ⟨hxy.2.1, lt_trans hxy.2.2 hreal.height_lt⟩ hshow

end Tracked

/-! ## Runs -/

/-- After every frame of a run the screen shows the whole picture. -/
theorem frame_whole {s t : Globals} {es : List Event} (hs : Started s)
    (hc : s.mouseSprite.height ≤ MOUSE_HEIGHT) (hrun : Run RepaintStep s es t)
    (hok : Event.Repaints t .redraw) :
    ∃ u, handle .redraw t = .ok ((), u) ∧ u.Whole := by
  have ht := hrun.guarded_invariant (fun _ _ _ h hok hst => h.step hok hst) (hs.tracked hc)
  obtain ⟨u, hu, -, hw⟩ := ht.redraw hok
  exact ⟨u, hu, hw⟩

/-- Nothing is left of the screen. -/
theorem straight_of_le {s : Globals} (h : ∀ p w, s.At p w → 0 ≤ w.x) : s.Straight :=
  fun p w hw => .inl (lt_of_lt_of_le (by decide) (h p w hw))

theorem noCursor_height {b : Int → Word} :
    (smallScreen.started b).mouseSprite.height ≤ MOUSE_HEIGHT :=
  show (0 : Int) ≤ 64 by decide

/-- A second window is created, gets the focus and is dragged. The background window covers what the
next frame repaints. -/
theorem frame_whole_dragged : ∃ s t u, Started s ∧
    Run RepaintStep s [secondWindow, pressCorner, dragAway] t ∧ t.bottomZ ≠ NULL ∧
    handle .redraw t = .ok ((), u) ∧ u.Whole := by
  obtain ⟨a, u, v, t, b, hs, hst, hpress, hdrag, ⟨htop, hdragging⟩, ⟨hb, -⟩, hmid, ⟨hbg, hat⟩, hw, hh⟩ :=
    exists_dragged
  have hundisturbed : Event.Repaints u pressCorner := by
    intro _ _ w _ _ g l₁ l₂ hg
    exact absurd htop hg.1
  have hsecond : Event.Repaints v dragAway := fun _ hms => absurd hdragging hms
  have hrun : Run RepaintStep _ [secondWindow, pressCorner, dragAway] t :=
    .cons ⟨⟨hst.1, trivial⟩, hst.2⟩ (.cons ⟨⟨hpress.1, hundisturbed⟩, hpress.2⟩
      (.single ⟨⟨hdrag.1, hsecond⟩, hdrag.2⟩))
  have ht : Inv t := hs.inv.run (.cons hst (.cons hpress (.single hdrag)))
  have hstraight : t.Straight := by
    refine straight_of_le fun p w hp => ?_
    have hm := ht.mem_midZs.mpr (ht.mem hp)
    rw [hmid] at hm
    rcases List.mem_cons.mp hm with rfl | hm
    · obtain rfl := Option.some.inj (hp.2.symm.trans hbg.2)
      exact le_refl _
    · obtain rfl := List.mem_singleton.mp hm
      obtain rfl := Option.some.inj (hp.2.symm.trans hat.2)
      exact (by decide : (0 : Int) ≤ 5)
  have hfilled : t.Filled := by
    refine .inr fun x y hxy _ => ⟨1, ?_, _, hbg, ?_⟩
    · exact List.mem_append_left _ (by rw [hmid]; decide)
    · obtain ⟨hx, hy⟩ := hxy
      rw [hw] at hx
      rw [hh] at hy
      refine ⟨⟨rfl, rfl⟩, ?_, ?_⟩
      · simp only [Screen.background, zero_add]
        exact hx
      · simp only [Screen.background, zero_add]
        exact hy
  obtain ⟨w, hredraw, hwhole⟩ := frame_whole hs noCursor_height hrun ⟨hstraight, hfilled⟩
  exact ⟨_, t, w, hs, hrun, by rw [hb]; decide, hredraw, hwhole⟩

/-! ## A frame without a background -/

/-- A second window of one pixel is created and the background window closed. -/
theorem exists_uncovered : ∃ s t b, Started s ∧ s.mouseSprite.height ≤ MOUSE_HEIGHT ∧
    Run Step s [secondWindow, .windowClose 1] t ∧ Tracked t ∧ t.At 2 (secondAt b) ∧
    (t.bottomZ = 2 ∧ t.stack = [2]) ∧ t.Marked 5 ∧ t.OnScreen 5 5 ∧
    t.mouseSprite = noCursor ∧ t.ctx.backbuffer = fun _ => 0 := by
  obtain ⟨a, v, b, hs, hst, hat, hb, ⟨htop, hmid⟩, hwidth, hheight, hmouse, hbg, -⟩ :=
    exists_second
  have hv : Tracked v := (hs.tracked noCursor_height).step ⟨hst.1, trivial⟩ hst.2
  have ho := (wp_ok (wp_handle hs.inv hst.2.1 hst.1) hst.2.2).2
  have hk := ho.kept (fun h => by cases h)
  have hloose : Event.Safe v (.windowClose 1) := by
    intro p w hp hwid
    obtain ⟨q, -, -, hq⟩ := hv.inv.get 1
    rw [← hq p w hp hwid, hq 1 _ hbg.2 rfl, htop, hb, hmouse]
    exact ⟨by decide, by decide, by decide⟩
  obtain ⟨m, hclose⟩ := hv.inv.close hbg
  have hclosed : Step v (.windowClose 1)
      (((v.unfocus 1).mark (smallScreen.background a)).closed 1 m) := ⟨trivial, hclose⟩
  have hsecond : Function.update v.heap 1 none 2 = some (secondAt b) :=
    (Function.update_of_ne (by decide) ..).trans hat.2
  refine ⟨_, _, b, hs, noCursor_height, .cons hst.2 (.cons hclosed (.nil _)),
    hv.step ⟨hloose, trivial⟩ hclosed, ⟨by decide, ?_⟩, ⟨hb, ?_⟩, ?_, ?_, ?_, ?_⟩
  · exact hsecond
  · exact stack_of htop (congrArg (List.erase · 1) hmid)
  · refine ⟨⟨0, 0, 30, 30⟩, List.mem_append_right _ (List.mem_singleton.mpr rfl), ?_⟩
    decide
  · change (0 ≤ 5 ∧ 5 < v.width) ∧ 0 ≤ 5 ∧ 5 < v.height
    rw [hwidth, hheight]
    decide
  · exact hk.mouseSprite
  · exact congrArg Context.backbuffer hk.ctx

/-- No window is left at the other pixels; they keep what the back buffer had. -/
theorem uncovered_stays : ∃ s t u, Started s ∧ s.mouseSprite.height ≤ MOUSE_HEIGHT ∧
    Run Step s [secondWindow, .windowClose 1] t ∧ handle .redraw t = .ok ((), u) ∧ ¬ u.Whole := by
  obtain ⟨s, t, b, hs, hheight, hrun, ht, hat, ⟨hb, hstack⟩, hmarked, hxy, hsprite, hback⟩ :=
    exists_uncovered
  have hst : t.Straight := by
    refine straight_of_le fun p w hw => ?_
    have hp : p ∈ t.stack := List.mem_append_left _ (ht.inv.mem_midZs.mpr (ht.inv.mem hw))
    rw [hstack] at hp
    obtain rfl := List.mem_singleton.mp hp
    obtain rfl := Option.some.inj (hw.2.symm.trans hat.2)
    exact le_refl _
  obtain ⟨c, hredraw, hsame, -, -, hpix⟩ := redraw_pixel ht.inv ht.real ht.sized hst ht.cursor.1
    ⟨ht.mouse.1.isInt, ht.mouse.2.isInt⟩
  refine ⟨s, t, _, hs, hheight, hrun, hredraw, fun hwhole => ?_⟩
  have hclip : isInClip (clipDamage t) 5 = true := by
    refine isInClip_of_marked ht.clipped ?_ hmarked
    rw [ht.real.2.2]
    exact hxy.2
  have hnone : topmost (t.layer 5 5) t.stack = none := by
    rw [hstack, topmost_singleton, layer_at hat, if_neg]
    rintro ⟨-, ⟨-, hlt⟩, -⟩
    exact absurd hlt (by simp only [secondAt, newWindow]; decide)
  have hcursor : ∀ mx my old, t.cursor mx my 5 5 old = old := by
    intro mx my old
    rw [Globals.cursor, if_neg]
    rintro ⟨⟨hlow, hhigh⟩, -⟩
    have hwide : t.mouseSprite.width = 0 := by rw [hsprite]; rfl
    omega
  have hold : c.buffer (t.ctx.index 5 5) = 0 := by
    have hp := hpix 5 5 hxy
    rw [if_pos hclip, hcursor, hnone, hb, hback] at hp
    exact hp
  have hnew := hwhole 5 5 hxy
  have hindex : (t.redrawn c).ctx.index 5 5 = t.ctx.index 5 5 := by
    rw [Context.index, Context.index, Globals.redrawn, hsame.pitch]
  have hframe : (t.redrawn c).frame (t.redrawn c).mouseX (t.redrawn c).mouseY 5 5 =
      FSK_DARK_CYAN := by
    change t.cursor t.mouseX t.mouseY 5 5 (t.picture (5, 5)) = _
    rw [hcursor, picture_eq, hnone]
    rfl
  rw [hindex, hframe] at hnew
  exact absurd (hold.symm.trans hnew) (by decide)

end Frog.Compositor
