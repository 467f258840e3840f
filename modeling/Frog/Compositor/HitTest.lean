import Frog.Compositor.Paint

/-!
# Hit testing and painting

`window_top_of` looks through closed rectangles and does not ask whether a window is shown; painting
leaves out the right column, the bottom row and hidden windows. The two agree at a point exactly when
the topmost window that either of them finds there is shown and has the point inside.
-/

set_option autoImplicit false

namespace Frog.Compositor

open Prog Painter HashMap

/-! ## The last painter -/

/-- The state for a repaint of all rows. -/
def Globals.unclipped (s : Globals) : Globals := { s with ctx := { s.ctx with clips := none } }

/-- The writes of the windows in a repaint of all rows, each with its window. -/
def Globals.painters (s : Globals) : List (Word × Int) :=
  s.paintOrder.flatMap fun p => ((s.unclipped.windowWrites p).map Prod.fst).map fun i => (p, i)

/-- The window that writes a pixel last. -/
def Globals.lastPainter (s : Globals) (x y : Int) : Word :=
  ((lastOf (fun e => decide (e.2 = s.ctx.index x y)) s.painters).map Prod.fst).getD NULL

def Globals.paints (s : Globals) (x y : Int) (p : Word) : Bool :=
  ((s.unclipped.windowWrites p).map Prod.fst).any fun i => decide (i = s.ctx.index x y)

section Points
variable {s : Globals} {p : Word} {w : Window} {x y : Int}

theorem Inv.lastPainter_eq (h : Inv s) :
    s.lastPainter x y = (lastOf (s.paints x y) s.stack).getD NULL := by
  have hstack : lastOf (s.paints x y) s.paintOrder = lastOf (s.paints x y) s.stack := by
    rw [Globals.paintOrder]
    by_cases hn : s.bottomZ = NULL
    · rw [if_pos hn, List.nil_append]
    · rw [if_neg hn, List.singleton_append]
      refine lastOf_cons_of_mem (List.mem_append_left _ ?_)
      exact h.mem_midZs.mpr (h.bottom.resolve_left hn)
  rw [Globals.lastPainter, ← hstack]
  exact congrArg (Option.getD · NULL) (lastOf_tagged (t := fun i => decide (i = s.ctx.index x y)))

theorem Inv.hitOrder_eq (h : Inv s) : s.hitOrder = s.stack := by
  rw [Globals.hitOrder, Globals.stack, h.focused]

theorem paints_iff_exists (hw : s.At p w) : s.paints x y p = true ↔
    ∃ e ∈ w.writes s.unclipped.ctx, e.1 = s.ctx.index x y := by
  have hwr : s.unclipped.windowWrites p = w.writes s.unclipped.ctx :=
    Globals.At.windowWrites (s := s.unclipped) hw
  simp only [Globals.paints, hwr, List.any_map, List.any_eq_true, Function.comp_apply,
    decide_eq_true_eq]

/-- A window less than 65536 columns left of the screen. -/
theorem paints_iff (hr : s.Real) (hw : s.At p w) (hs : w.Sized) (hx : -65536 < w.x)
    (hpx : 0 ≤ x ∧ x < s.width) (hpy : 0 ≤ y ∧ y < s.height) :
    s.paints x y p = true ↔ w.Shows x y := by
  obtain ⟨hreal, hcw, hch⟩ := hr
  rw [paints_iff_exists hw]
  have hsame : s.ctx.Same s.unclipped.ctx := ⟨rfl, rfl, rfl, rfl⟩
  have hreal' := hsame.real hreal
  refine (any_writes hreal' hs hx (hcw ▸ hpx) (hch ▸ hpy)).trans ?_
  exact and_iff_right rfl

theorem inWindow_iff {width height px py : Int} : inWindow x y width height px py = true ↔
    (x ≤ px ∧ px ≤ i32 (x + width)) ∧ y ≤ py ∧ py ≤ i32 (y + height) := by
  simp only [inWindow]
  split
  · simp only [Bool.false_eq_true, false_iff]
    omega
  · simp only [true_iff]
    omega

theorem hits_iff (hw : s.At p w) : s.hits x y p = true ↔
    (w.x ≤ x ∧ x ≤ i32 (w.x + u32 w.width)) ∧ w.y ≤ y ∧ y ≤ i32 (w.y + u32 w.height) := by
  rw [Globals.hits, hw.2]
  exact inWindow_iff

/-- A window that is painted has rows. -/
theorem height_pos_of_paints (hw : s.At p w) (hs : w.Sized) (hp : s.paints x y p = true) :
    0 < w.height := by
  obtain ⟨e, he, -⟩ := (paints_iff_exists hw).mp hp
  rw [hs.writes] at he
  split at he
  · obtain ⟨j, hj, -⟩ := mem_spriteWrites.mp he
    have hj := List.mem_filter.mp ((List.takeWhile_sublist _).subset (List.mem_filter.mp hj).1)
    have hj := mem_between.mp hj.1
    have hH := hs.height
    simp only [windowSprite, u16] at hj
    omega
  · cases he

/-- Hit and painted is the same as shown, whatever the place of the window. -/
theorem hits_and_paints (hr : s.Real) (hw : s.At p w) (hs : w.Sized)
    (hpx : 0 ≤ x ∧ x < s.width) (hpy : 0 ≤ y ∧ y < s.height) :
    (s.hits x y p = true ∧ s.paints x y p = true) ↔ w.Shows x y := by
  have hwl : s.width < 65536 := hr.2.1 ▸ hr.1.width_lt
  have hhl : s.height < 65536 := hr.2.2 ▸ hr.1.height_lt
  have hX := hs.x
  have hY := hs.y
  have hH := hs.height
  unfold IsInt at hX hY
  rw [hits_iff hw]
  constructor
  · rintro ⟨hh, hp⟩
    have hW := hs.width (height_pos_of_paints hw hs hp)
    -- a window that wraps ends left of the screen
    have hx : -65536 < w.x := by
      rw [u32_of_small hW.1 (by omega), i32_of_small (by omega) (by omega)] at hh
      omega
    exact (paints_iff hr hw hs hx hpx hpy).mp hp
  · intro hin
    obtain ⟨-, hin1, hin2⟩ := id hin
    have hW := hs.width (by omega)
    refine ⟨?_, (paints_iff hr hw hs (by omega) hpx hpy).mpr hin⟩
    rw [u32_of_small hW.1 (by omega), u32_of_small hH.1 (by omega),
      i32_of_small (by omega) (by omega), i32_of_small (by omega) (by omega)]
    omega

/-- The topmost window that is hit or painted at a point is shown there. -/
def Globals.Agrees (s : Globals) (x y : Int) : Prop :=
  ∀ p, lastOf (fun q => s.hits x y q || s.paints x y q) s.stack = some p →
    ∃ w, s.At p w ∧ w.Shows x y

theorem windowTopOf_eq_iff (hi : Inv s) (hr : s.Real) (hs : s.Sized)
    (hpx : 0 ≤ x ∧ x < s.width) (hpy : 0 ≤ y ∧ y < s.height) :
    windowTopOf x y s = .ok (s.lastPainter x y, s) ↔ s.Agrees x y := by
  have hwl : s.width < 65536 := hr.2.1 ▸ hr.1.width_lt
  have hhl : s.height < 65536 := hr.2.2 ▸ hr.1.height_lt
  have htop : s.topOf x y = (lastOf (s.hits x y) s.stack).getD NULL := by
    rw [Globals.topOf, if_neg (by omega), i32_of_small (by omega) (by omega),
      i32_of_small (by omega) (by omega), hi.hitOrder_eq]
  have hnull : ∀ {t : Word → Bool} {p}, lastOf t s.stack = some p → p ≠ NULL := by
    rintro t p hp rfl
    exact hi.null (hi.mem_stack (lastOf_mem hp).1)
  have hget : ∀ {t t' : Word → Bool},
      (lastOf t s.stack).getD NULL = (lastOf t' s.stack).getD NULL ↔
        lastOf t s.stack = lastOf t' s.stack := by
    intro t t'
    constructor
    · intro he
      cases ht : lastOf t s.stack with
      | none =>
        cases ht' : lastOf t' s.stack with
        | none => rfl
        | some q =>
          rw [ht, ht'] at he
          exact absurd he.symm (hnull ht')
      | some p =>
        cases ht' : lastOf t' s.stack with
        | none =>
          rw [ht, ht'] at he
          exact absurd he (hnull ht)
        | some q =>
          rw [ht, ht'] at he
          exact congrArg some he
    · exact congrArg (Option.getD · NULL)
  rw [hi.windowTopOf_eq, htop, hi.lastPainter_eq, Except.ok.injEq, Prod.mk.injEq, and_iff_left rfl,
    hget, lastOf_eq_iff]
  refine forall_congr' fun p => imp_congr_right fun hp => ?_
  obtain ⟨w, hw⟩ := hi.exists_at (hi.mem_stack (lastOf_mem hp).1)
  rw [hits_and_paints hr hw (hs p w hw.2) hpx hpy]
  constructor
  · exact fun h => ⟨w, hw, h⟩
  · rintro ⟨v, hv, h⟩
    obtain rfl := Option.some.inj (hv.2.symm.trans hw.2)
    exact h

end Points

/-! ## Runs -/

/-- An event, or the flag of a window set. -/
inductive HitEvent where
  | event (e : Event)
  | hide (p : Word)

/-- No message hides a window, so hiding is only the flag. -/
def HitStep (s : Globals) : HitEvent → Globals → Prop
  | .event e, t => Step s e t
  | .hide p, t => ∃ w, s.At p w ∧ t = s.setWindow p { w with hidden := true }

def HitEvent.Safe (s : Globals) : HitEvent → Prop
  | .event e => e.Safe s
  | .hide _ => True

abbrev SafeHitStep : Globals → HitEvent → Globals → Prop :=
  Guarded (fun s e => e.Safe s) HitStep

theorem hit_run_inv {s t : Globals} {es : List HitEvent} (hs : Started s)
    (hrun : Run SafeHitStep s es t) : Inv t ∧ t.Real ∧ t.Sized := by
  refine hrun.guarded_invariant (I := fun s => Inv s ∧ s.Real ∧ s.Sized) ?_
    ⟨hs.inv, hs.real.2, hs.real.1⟩
  rintro s e t ⟨hi, hr, hz⟩ hsafe hst
  cases e with
  | event e =>
    obtain ⟨ht, ho⟩ := wp_ok (wp_handle hi hst.1 hsafe) hst.2
    exact ⟨ht, ho.real hr, ho.sized hz⟩
  | hide p =>
    obtain ⟨w, hw, rfl⟩ := hst
    obtain ⟨hx, hy, hh, hwd, ho⟩ := hz p w hw.2
    have hsize : Window.Sized { w with hidden := true } := ⟨hx, hy, hh, hwd, ho⟩
    exact ⟨hi.setWindow hw rfl, hr, hz.setWindow hsize⟩

/-- At a point of the screen `window_top_of` returns the last painter exactly when the topmost
window that is hit or painted there is shown there. -/
theorem hit_test_iff {s t : Globals} {es : List HitEvent} (hs : Started s)
    (hrun : Run SafeHitStep s es t) {x y : Int} (hx : 0 ≤ x ∧ x < t.width)
    (hy : 0 ≤ y ∧ y < t.height) :
    windowTopOf x y t = .ok (t.lastPainter x y, t) ↔ t.Agrees x y := by
  obtain ⟨hi, hr, hz⟩ := hit_run_inv hs hrun
  exact windowTopOf_eq_iff hi hr hz hx hy

theorem stack_of {u : Globals} {ps : List Word} (ht : u.topZ = NULL) (hm : u.midZs = ps) :
    u.stack = ps := by
  rw [Globals.stack, if_pos ht, hm, List.append_nil]

/-- The second window is hit at its only pixel and at the column after it. -/
theorem second_hit {u : Globals} {b : Int → Word} (hat : u.At 2 (secondAt b))
    (hst : u.stack = [1, 2]) {x : Int} (hx : x = 0 ∨ x = 1) :
    lastOf (fun q => u.hits x 0 q || u.paints x 0 q) u.stack = some 2 := by
  have hh : u.hits x 0 2 = true := by
    refine (hits_iff hat).mpr ?_
    simp only [secondAt, newWindow]
    rcases hx with rfl | rfl <;> decide
  rw [hst, lastOf_cons, lastOf_singleton, hh]
  rfl

theorem hit_test_iff_second : ∃ s t, Started s ∧
    Run SafeHitStep s [.event secondWindow] t ∧
    windowTopOf 0 0 t = .ok (t.lastPainter 0 0, t) := by
  obtain ⟨_, t, b, hs, ⟨hsafe, hst⟩, hat, -, hstack, hw, hh, -⟩ := exists_second
  have hstack := stack_of hstack.1 hstack.2
  have hrun : Run SafeHitStep _ [.event secondWindow] t := .single ⟨hsafe, hst⟩
  refine ⟨_, t, hs, hrun, (hit_test_iff hs hrun ?_ ?_).mpr fun p hp => ?_⟩
  · rw [hw]
    decide
  · rw [hh]
    decide
  · rw [second_hit hat hstack (.inl rfl)] at hp
    obtain rfl := Option.some.inj hp
    exact ⟨_, hat, ⟨rfl, rfl⟩, by simp only [secondAt, newWindow]; decide⟩

/-- Right of the second window, it is hit, and the background is painted. -/
theorem hit_not_painted : ∃ s t, Started s ∧ Run SafeHitStep s [.event secondWindow] t ∧
    windowTopOf 1 0 t ≠ .ok (t.lastPainter 1 0, t) := by
  obtain ⟨_, t, b, hs, ⟨hsafe, hst⟩, hat, -, hstack, hw, hh, -⟩ := exists_second
  have hstack := stack_of hstack.1 hstack.2
  have hrun : Run SafeHitStep _ [.event secondWindow] t := .single ⟨hsafe, hst⟩
  refine ⟨_, t, hs, hrun, fun he => ?_⟩
  obtain ⟨hi, hr, hz⟩ := hit_run_inv hs hrun
  have hagree := (windowTopOf_eq_iff hi hr hz (by rw [hw]; decide) (by rw [hh]; decide)).mp he
  obtain ⟨w, hat', hshow⟩ := hagree 2 (second_hit hat hstack (.inr rfl))
  obtain rfl := Option.some.inj (hat'.2.symm.trans hat.2)
  obtain ⟨-, ⟨-, hlt⟩, -⟩ := hshow
  exact absurd hlt (by simp only [secondAt, newWindow]; decide)

end Frog.Compositor
