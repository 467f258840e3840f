import Frog.Compositor.Frame

/-!
# Redrawing the damaged rows

After every frame the screen shows the whole picture. Rows that are not repainted already showed it,
with the cursor where the last frame put it; rows that are repainted are painted from the background
up, or every pixel of them by some window.
-/

set_option autoImplicit false

namespace Frog.Compositor

open Prog Painter HashMap

/-! ## Clipped rows -/

/-- The clips, once allocated, have one entry for each row. -/
def Context.Clipped (c : Context) : Prop := c.clips ≠ none → c.clipsSize = c.height

/-- A row that the clips let through. -/
def Context.Clips (c : Context) (y : Int) : Prop := c.clips ≠ none ∧ isInClip c y = true

section Clips
variable {c : Context} {x y w h r : Int}

theorem clipped_gfxAddClip (hc : c.Clipped) : (gfxAddClip x y w h c).Clipped := by
  intro _
  unfold Context.Clipped at hc
  simp only [gfxAddClip]
  cases ho : c.clips with
  | none => rfl
  | some row => exact hc (by simp [ho])

theorem clips_gfxAddClip (hc : c.Clipped) (hr : 0 ≤ r ∧ r < c.height)
    (h' : (max y 0 ≤ r ∧ r < i32 (y + h)) ∨ c.Clips r) : (gfxAddClip x y w h c).Clips r := by
  have hsize : (gfxAddClip x y w h c).clipsSize = c.height :=
    clipped_gfxAddClip (c := c) hc (Option.some_ne_none _)
  refine ⟨Option.some_ne_none _, ?_⟩
  have hsize' : (if c.clips.isSome then c.clipsSize else c.height) = c.height := hsize
  have hin : ¬ (r < 0 ∨ c.height ≤ r) := by omega
  simp only [isInClip, gfxAddClip, hsize', if_neg hin]
  rw [writeAll_copy (g := fun _ => true)]
  rcases h' with hrow | ⟨hsome, hclip⟩
  · rw [if_pos (mem_between.mpr ⟨hrow.1, lt_min hrow.2 hr.2⟩)]
  · split
    · rfl
    · cases ho : c.clips with
      | none => exact absurd ho hsome
      | some row =>
        have hcs : c.clipsSize = c.height := hc hsome
        rw [isInClip, ho] at hclip
        simp only [hcs, if_neg hin] at hclip
        exact hclip

theorem clips_foldl (l : List DamageRect) (hc : c.Clipped) (hr : 0 ≤ r ∧ r < c.height)
    (h' : (∃ d ∈ l, max d.y 0 ≤ r ∧ r < i32 (d.y + i32 d.height)) ∨ c.Clips r) :
    (l.foldl (fun c d => gfxAddClip d.x d.y (i32 d.width) (i32 d.height) c) c).Clips r := by
  induction l generalizing c with
  | nil =>
    rcases h' with ⟨d, hd, -⟩ | h'
    · cases hd
    · exact h'
  | cons d l ih =>
    refine ih (clipped_gfxAddClip hc) hr ?_
    rcases h' with ⟨e, he, hrow⟩ | h'
    · rcases List.mem_cons.mp he with rfl | he
      · exact .inr (clips_gfxAddClip hc hr (.inl hrow))
      · exact .inl ⟨e, he, hrow⟩
    · exact .inr (clips_gfxAddClip hc hr (.inr h'))

theorem clipped_foldl (l : List DamageRect) (hc : c.Clipped) :
    (l.foldl (fun c d => gfxAddClip d.x d.y (i32 d.width) (i32 d.height) c) c).Clipped := by
  induction l generalizing c with
  | nil => exact hc
  | cons d l ih => exact ih (clipped_gfxAddClip hc)

end Clips

section Damage
variable {s : Globals} {y : Int}

/-- The mouse has moved since the last frame. -/
def Globals.MouseMoved (s : Globals) : Prop :=
  s.lastMouseX ≠ s.mouseX ∨ s.lastMouseY ≠ s.mouseY

/-- The context with the rows of the old and the new cursor clipped in. -/
def Globals.cursorClips (s : Globals) : Context :=
  if s.lastMouseX ≠ s.mouseX ∨ s.lastMouseY ≠ s.mouseY then
    gfxAddClip s.mouseX s.mouseY MOUSE_WIDTH MOUSE_HEIGHT
      (gfxAddClip s.lastMouseX s.lastMouseY MOUSE_WIDTH MOUSE_HEIGHT (gfxClearClip s.ctx))
  else gfxClearClip s.ctx

theorem clipDamage_eq : clipDamage s = s.updateList.foldl
    (fun c d => gfxAddClip d.x d.y (i32 d.width) (i32 d.height) c) s.cursorClips := rfl

theorem clipped_clear (h : s.ctx.Clipped) : (gfxClearClip s.ctx).Clipped := by
  intro hn
  refine h fun ho => hn ?_
  rw [gfxClearClip, ho]
  rfl

theorem clipped_cursorClips (h : s.ctx.Clipped) : s.cursorClips.Clipped := by
  rw [Globals.cursorClips]
  split
  · exact clipped_gfxAddClip (clipped_gfxAddClip (clipped_clear h))
  · exact clipped_clear h

theorem cursorClips_height : s.cursorClips.height = s.ctx.height := by
  rw [Globals.cursorClips]
  split <;> rfl

theorem clipped_clipDamage (h : s.ctx.Clipped) : (clipDamage s).Clipped := by
  rw [clipDamage_eq]
  exact clipped_foldl _ (clipped_cursorClips h)

/-- Marked rows are repainted. -/
theorem isInClip_of_marked (h : s.ctx.Clipped) (hy : 0 ≤ y ∧ y < s.ctx.height)
    (hm : s.Marked y) : isInClip (clipDamage s) y = true := by
  rw [clipDamage_eq]
  refine (clips_foldl _ (clipped_cursorClips h) ?_ (.inl hm)).2
  rw [cursorClips_height]
  exact hy

/-- The rows of the old and of the new cursor are repainted when the mouse has moved. -/
theorem isInClip_of_cursor (h : s.ctx.Clipped) (hy : 0 ≤ y ∧ y < s.ctx.height)
    (hm : s.MouseMoved)
    (hrow : (max s.lastMouseY 0 ≤ y ∧ y < i32 (s.lastMouseY + MOUSE_HEIGHT)) ∨
      max s.mouseY 0 ≤ y ∧ y < i32 (s.mouseY + MOUSE_HEIGHT)) :
    isInClip (clipDamage s) y = true := by
  rw [clipDamage_eq]
  refine (clips_foldl _ (clipped_cursorClips h) ?_ (.inr ?_)).2
  · rw [cursorClips_height]
    exact hy
  · have hmoved : s.lastMouseX ≠ s.mouseX ∨ s.lastMouseY ≠ s.mouseY := hm
    rw [Globals.cursorClips, if_pos hmoved]
    have hclear := clipped_clear h
    rcases hrow with hrow | hrow
    · exact clips_gfxAddClip (clipped_gfxAddClip hclear) hy
        (.inr (clips_gfxAddClip hclear hy (.inl hrow)))
    · exact clips_gfxAddClip (clipped_gfxAddClip hclear) hy (.inl hrow)

end Damage

/-! ## Writing and copying out -/

section Pixels
variable {s : Globals} {c : Context} {x y : Int} {b : Int → Word}

theorem Context.Real.index_mem_rows (hc : c.Real) (hx : 0 ≤ x ∧ x < c.width)
    (p : Int → Bool) :
    (c.index x y ∈ ((between 0 c.height).filter p).flatMap fun j =>
      (between 0 c.width).map fun i => c.index i j) ↔ (0 ≤ y ∧ y < c.height) ∧ p y = true := by
  simp only [List.mem_flatMap, List.mem_filter, List.mem_map, mem_between]
  constructor
  · rintro ⟨j, hj, i, hi, he⟩
    obtain ⟨rfl, rfl⟩ := (hc.index_inj hi hx).mp he
    exact hj
  · exact fun h => ⟨y, h, x, hx, rfl⟩

/-- The rows that are clipped in reach the screen. -/
theorem flip_buffer (hc : c.Real) (hx : 0 ≤ x ∧ x < c.width) (hy : 0 ≤ y ∧ y < c.height) :
    (flip c).buffer (c.index x y) =
      if isInClip c y = true then c.backbuffer (c.index x y) else c.buffer (c.index x y) := by
  have hrange := hc.index_range hx hy
  rw [flip]
  cases ho : c.clips with
  | none =>
    have hall : isInClip c y = true := by rw [isInClip, ho]
    simp only [copyOut, writeAll_copy (g := c.backbuffer), if_pos hall]
    rw [if_pos (mem_between.mpr hrange)]
  | some row =>
    simp only [copyOut, writeAll_copy (g := c.backbuffer)]
    by_cases hclip : isInClip c y = true
    · rw [if_pos hclip, if_pos ((hc.index_mem_rows hx _).mpr ⟨hy, hclip⟩)]
    · rw [if_neg hclip, if_neg fun hm => hclip ((hc.index_mem_rows hx _).mp hm).2]

/-- The background fills every pixel. -/
theorem writeAll_solid (hc : c.Real) (hx : 0 ≤ x ∧ x < c.width) (hy : 0 ≤ y ∧ y < c.height)
    (color : Word) :
    writeAll (solid c 0 0 c.width c.height color) b (c.index x y) = color := by
  have hsolid : solid c 0 0 c.width c.height color =
      (((between 0 c.height).filter fun _ => true).flatMap fun j =>
        (between 0 c.width).map fun i => c.index i j).map fun i => (i, fun _ => color) := by
    rw [solid, List.map_flatMap, List.filter_true, zero_add, zero_add]
    simp only [List.map_map, Function.comp_def]
  rw [hsolid, writeAll_copy (g := fun _ => color)]
  exact if_pos ((hc.index_mem_rows hx _).mpr ⟨hy, rfl⟩)

end Pixels

/-! ## A frame -/

/-- No window is so far left of the screen that its columns wrap into other rows. -/
def Globals.Straight (s : Globals) : Prop :=
  ∀ p w, s.At p w → -65536 < w.x ∨ w.writes (clipDamage s) = []

section Frame
variable {s : Globals} {c : Context} {p : Word} {w : Window} {x y : Int} {b : Int → Word}
  {ps : List Word}

/-- The state in which the windows are painted. -/
def Globals.painting (s : Globals) : Globals := s.redrawn (clipDamage s)

theorem Globals.Real.painting (h : s.Real) : s.painting.Real := by
  have hsame := same_clipDamage s
  exact ⟨hsame.real h.1, hsame.width.trans h.2.1, hsame.height.trans h.2.2⟩

theorem windows_inside (hi : Inv s) (hr : s.Real) (hs : s.Sized) (hst : s.Straight)
    (hps : ∀ p ∈ ps, p ∈ s.windows) :
    ∀ e ∈ ps.flatMap s.painting.windowWrites, (clipDamage s).Inside e := by
  intro e he
  obtain ⟨p, hp, he⟩ := List.mem_flatMap.mp he
  obtain ⟨w, hw⟩ := hi.exists_at (hps p hp)
  have hsz := hs p w hw.2
  have hwr : s.painting.windowWrites p = w.writes (clipDamage s) :=
    Globals.At.windowWrites (s := s.painting) hw
  rw [hwr] at he
  rcases hst p w hw with hx | hnil
  · rw [hsz.writes] at he
    split at he
    · exact spriteWrites_inside (s := windowSprite w) hr.painting.1.proper hsz.x hsz.y hx e he
    · cases he
  · rw [hnil] at he
    cases he

/-- A pixel after all windows of a list are painted. -/
theorem writeAll_windows (hi : Inv s) (hr : s.Real) (hs : s.Sized) (hst : s.Straight)
    (hxy : s.OnScreen x y) (hps : ∀ p ∈ ps, p ∈ s.windows) :
    writeAll (ps.flatMap s.painting.windowWrites) b ((clipDamage s).index x y) =
      if isInClip (clipDamage s) y = true then
        (topmost (s.layer x y) ps).getD (b ((clipDamage s).index x y))
      else b ((clipDamage s).index x y) := by
  have hreal := hr.painting
  have hx : 0 ≤ x ∧ x < (clipDamage s).width := hreal.2.1 ▸ hxy.1
  have hy : 0 ≤ y ∧ y < (clipDamage s).height := hreal.2.2 ▸ hxy.2
  induction ps generalizing b with
  | nil => split <;> rfl
  | cons p ps ih =>
    obtain ⟨w, hw⟩ := hi.exists_at (hps p List.mem_cons_self)
    have hsz := hs p w hw.2
    have hwr : s.painting.windowWrites p = w.writes (clipDamage s) :=
      Globals.At.windowWrites (s := s.painting) hw
    -- a window whose columns would wrap is not on the screen
    have hone : writeAll (w.writes (clipDamage s)) b ((clipDamage s).index x y) =
        if isInClip (clipDamage s) y = true ∧ w.Shows x y then w.color x y
        else b ((clipDamage s).index x y) := by
      by_cases hwx : -65536 < w.x
      · exact writeAll_writes hreal.1 hsz hwx hx hy b
      · rw [(hst p w hw).resolve_left hwx, writeAll_nil, if_neg]
        rintro ⟨-, -, h1, h2⟩
        have hwd := hsz.width (by omega)
        omega
    rw [List.flatMap_cons, writeAll_append, ih fun q hq => hps q (List.mem_cons_of_mem _ hq), hwr,
      hone, topmost_cons, layer_at hw]
    by_cases hclip : isInClip (clipDamage s) y = true
    · by_cases hshow : w.Shows x y
      · simp only [hclip, hshow, and_self, if_true]
        cases topmost (s.layer x y) ps <;> rfl
      · simp only [hclip, hshow, and_false, if_true, if_false, Option.or_none]
    · simp only [hclip, Bool.false_eq_true, false_and, if_false]

/-- The picture before the cursor is drawn. -/
def Globals.blitted (s : Globals) : Int → Word :=
  writeAll (s.painting.backgroundWrites ++ s.paintOrder.flatMap s.painting.windowWrites)
    (clipDamage s).backbuffer

theorem Inv.mem_paintOrder (h : Inv s) (hp : p ∈ s.paintOrder) : p ∈ s.windows := by
  rcases List.mem_append.mp hp with hp | hp
  · split at hp
    · cases hp
    · rename_i hn
      obtain rfl := List.mem_singleton.mp hp
      exact h.bottom.resolve_left hn
  · exact h.mem_stack hp

theorem Inv.topmost_paintOrder (h : Inv s) (f : Word → Option Word) :
    topmost f s.paintOrder = topmost f s.stack := by
  rw [Globals.paintOrder]
  by_cases hn : s.bottomZ = NULL
  · rw [if_pos hn, List.nil_append]
  · rw [if_neg hn, List.singleton_append]
    refine topmost_cons_of_mem (List.mem_append_left _ ?_)
    exact h.mem_midZs.mpr (h.bottom.resolve_left hn)

theorem background_inside :
    ∀ e ∈ s.painting.backgroundWrites, (clipDamage s).Inside e := by
  intro e he
  rw [Globals.backgroundWrites] at he
  split at he
  · obtain ⟨i, j, hi, hj, heq⟩ := mem_solid he
    rw [zero_add] at hi hj
    exact ⟨i, j, hi, hj, heq⟩
  · cases he

theorem onGfx_ok {m : G Unit} {u : Unit} (h : m s.ctx = .ok (u, c)) :
    onGfx m s = .ok (u, { s with ctx := c }) := by
  rw [onGfx, h]

/-- The windows are painted without a fault. -/
theorem blit_painting (hi : Inv s) (hr : s.Real) (hs : s.Sized) (hst : s.Straight) :
    poudlandBlitWindows s.painting = .ok ((), s.redrawn
      { clipDamage s with backbuffer := s.blitted }) := by
  have hput : put (s.painting.backgroundWrites ++ s.paintOrder.flatMap s.painting.windowWrites)
      (clipDamage s) = .ok ((), { clipDamage s with backbuffer := s.blitted }) := by
    refine hr.painting.1.put_eq fun e he => ?_
    rcases List.mem_append.mp he with he | he
    · exact background_inside e he
    · exact windows_inside hi hr hs hst (fun p hp => hi.mem_paintOrder hp) e he
  have hblit := poudlandBlitWindows_eq (s := s.painting) (hi.redrawn _) hr.painting
  exact hblit.trans (onGfx_ok hput)

theorem blitted_pixel (hi : Inv s) (hr : s.Real) (hs : s.Sized) (hst : s.Straight)
    (hxy : s.OnScreen x y) (hclip : isInClip (clipDamage s) y = true) :
    s.blitted (s.ctx.index x y) = (topmost (s.layer x y) s.stack).getD
      (if s.bottomZ = NULL then FSK_DARK_CYAN else s.ctx.backbuffer (s.ctx.index x y)) := by
  obtain ⟨r, n, honly⟩ := clipDamage_only s
  have hindex : s.ctx.index x y = (clipDamage s).index x y := by rw [honly]; rfl
  have hback : (clipDamage s).backbuffer = s.ctx.backbuffer := by rw [honly]
  have hreal := hr.painting
  rw [hindex, Globals.blitted, writeAll_append,
    writeAll_windows hi hr hs hst hxy fun p hp => hi.mem_paintOrder hp, if_pos hclip,
    hi.topmost_paintOrder]
  congr 1
  have hbottom : s.painting.bottomZ = s.bottomZ := rfl
  rw [Globals.backgroundWrites, hbottom]
  by_cases hn : s.bottomZ = NULL
  · rw [if_pos hn, if_pos hn]
    exact writeAll_solid hreal.1 (hreal.2.1 ▸ hxy.1) (hreal.2.2 ▸ hxy.2) _
  · rw [if_neg hn, if_neg hn, writeAll_nil, hback]

/-- What a frame leaves on the screen. -/
theorem redraw_pixel (hi : Inv s) (hr : s.Real) (hs : s.Sized) (hst : s.Straight)
    (hcur : s.mouseSprite.alpha = .embedded) (hm : IsInt s.mouseX ∧ IsInt s.mouseY) :
    ∃ c, handle .redraw s = .ok ((), s.redrawn c) ∧ s.ctx.Same c ∧
      c.clips = (clipDamage s).clips ∧ c.clipsSize = (clipDamage s).clipsSize ∧
      ∀ x y, s.OnScreen x y → c.buffer (s.ctx.index x y) =
        if isInClip (clipDamage s) y = true then
          s.cursor s.mouseX s.mouseY x y ((topmost (s.layer x y) s.stack).getD
            (if s.bottomZ = NULL then FSK_DARK_CYAN else s.ctx.backbuffer (s.ctx.index x y)))
        else s.ctx.buffer (s.ctx.index x y) := by
  obtain ⟨r, n, honly⟩ := clipDamage_only s
  have hreal := hr.painting
  have hstraight : s.mouseSprite.Straight s.mouseX := by
    rw [Sprite.Straight, hcur]
    trivial
  let c₁ : Context := { clipDamage s with backbuffer := s.blitted }
  have hsame₁ : (clipDamage s).Same c₁ := same_setBackbuffer _
  have hreal₁ : c₁.Real := hsame₁.real hreal.1
  let c₂ : Context := { c₁ with
    backbuffer := writeAll (spriteWrites c₁ s.mouseSprite s.mouseX s.mouseY) c₁.backbuffer }
  have hsame₂ : c₁.Same c₂ := same_setBackbuffer _
  have hdraw : drawSprite s.mouseSprite s.mouseX s.mouseY c₁ = .ok ((), c₂) := by
    rw [drawSprite, bind_ok (get_apply c₁)]
    exact hreal₁.put_eq (spriteWrites_inside hreal₁.proper hm.1 hm.2 hstraight)
  have hmouse : drawMouse (s.redrawn c₁) = .ok ((), s.redrawn c₂) := by
    rw [drawMouse, bind_ok (get_apply _)]
    exact onGfx_ok hdraw
  refine ⟨flip c₂, ?_, ?_, ?_, ?_, ?_⟩
  · rw [handle, redrawWindows, bind_ok (modify_apply _ s)]
    change (poudlandBlitWindows >>= _) s.painting = _
    rw [bind_ok (blit_painting hi hr hs hst), bind_ok hmouse]
    rfl
  · exact (((same_clipDamage s).trans hsame₁).trans hsame₂).trans same_flip
  · rw [flip]
    split <;> rfl
  · rw [flip]
    split <;> rfl
  · intro x y hxy
    have hindex : s.ctx.index x y = (clipDamage s).index x y := by rw [honly]; rfl
    have hx : 0 ≤ x ∧ x < (clipDamage s).width := hreal.2.1 ▸ hxy.1
    have hy : 0 ≤ y ∧ y < (clipDamage s).height := hreal.2.2 ▸ hxy.2
    have hflip := flip_buffer (hsame₂.real hreal₁) (x := x) (y := y) hx hy
    have hclip₂ : isInClip c₂ y = isInClip (clipDamage s) y := rfl
    have hbuf : c₂.buffer = s.ctx.buffer := by
      change (clipDamage s).buffer = _
      rw [honly]
    have hindex₂ : c₂.index x y = s.ctx.index x y := hindex.symm
    rw [hindex₂, hclip₂, hbuf] at hflip
    rw [hflip]
    by_cases hclip : isInClip (clipDamage s) y = true
    · rw [if_pos hclip, if_pos hclip, ← blitted_pixel hi hr hs hst hxy hclip]
      have hsprite := writeAll_spriteWrites (c := c₁) hreal₁.proper hm.1 hm.2 hstraight hx hy c₁.backbuffer
      have hclip₁ : isInClip c₁ y = true := hclip
      have hindex₁ : c₁.index x y = s.ctx.index x y := hindex.symm
      rw [hindex₁] at hsprite
      simp only [hclip₁, true_and] at hsprite
      exact hsprite
    · rw [if_neg hclip, if_neg hclip]

end Frame

end Frog.Compositor
