import Frog.Compositor.Server
import Frog.Structs.HashRuns

/-!
# What the handlers do

Each function that touches the windows has one lemma with the state it ends in. They need the
windows they are given to be live, which `Inv` promises.
-/

set_option autoImplicit false

namespace Frog.Compositor

open Prog Painter HashMap

/-- The faults of drawing. -/
def Drawing (f : Fault) : Prop := f = .hang ∨ f = .outside

/-! ## Access -/

/-- The window at `p`. -/
def Globals.At (s : Globals) (p : Word) (w : Window) : Prop := p ≠ NULL ∧ s.heap p = some w

def Globals.setWindow (s : Globals) (p : Word) (w : Window) : Globals :=
  { s with heap := Function.update s.heap p (some w) }

section Access
variable {E : Fault → Prop} {s : Globals} {p : Word} {w v : Window}

theorem Globals.At.setWindow (h : s.At p w) : (s.setWindow p v).At p v :=
  ⟨h.1, Function.update_self ..⟩

theorem wp_window {Q : Window → Globals → Prop} (h : s.At p w) :
    wp E (window p) Q s ↔ Q w s := by
  rw [window, wp_bind, wp_check, wp_bind, wp_get, wp_need, h.2]
  constructor
  · intro hw
    exact (hw.1 h.1).1 w rfl
  · intro hq
    refine ⟨fun _ => ⟨?_, fun he => by cases he⟩, fun hn => absurd h.1 hn⟩
    rintro _ ⟨⟩
    exact hq

theorem wp_onGfx {m : G Unit} {Q : Unit → Globals → Prop} :
    wp E (onGfx m) Q s ↔ wp E m (fun u c => Q u { s with ctx := c }) s.ctx := by
  unfold wp onGfx
  cases m s.ctx <;> rfl

theorem onMap_ok {α : Type} {m : Nat → HashMap.M α} {a : α} {t : Hashmap}
    (h : m (s.changes + 1) s.widsToWindows = .ok (a, t)) :
    onMap m s = .ok (a, { s with widsToWindows := t }) := by
  unfold onMap
  rw [h]

theorem wp_drawWindow {m : G Unit} {Q : Unit → Globals → Prop} (h : s.At p w) :
    wp E (drawWindow p m) Q s ↔ wp E m
      (fun _ c => Q () (s.setWindow p { w with buffer := c.backbuffer }))
      (initGfxPoudlandSwindow w) := by
  rw [drawWindow, wp_bind, wp_window h]
  unfold wp
  cases m (initGfxPoudlandSwindow w) <;> rfl

end Access

/-! ## Drawing -/

section Draw
variable {c : Context} {ws : List (Int × (Word → Word))}

theorem wp_put : wp Drawing (put ws) (fun _ t => ∃ b, t = { c with backbuffer := b }) c := by
  induction ws generalizing c with
  | nil => exact ⟨_, rfl⟩
  | cons w ws ih =>
    rw [put, wp_bind, wp_get, wp_bind, wp_check]
    refine ⟨fun _ => ?_, fun _ => .inr rfl⟩
    rw [wp_bind, wp_modify]
    apply wp_mono ih
    rintro _ _ ⟨b, rfl⟩
    exact ⟨b, rfl⟩

theorem wp_drawFill {color : Word} : wp Drawing (drawFill color) (fun _ t =>
    (c.height < 65536 ∧ (c.width < 65536 ∨ c.height ≤ 0)) ∧ ∃ b, t = { c with backbuffer := b })
    c := by
  rw [drawFill, wp_bind, wp_get, wp_bind, wp_check]
  refine ⟨fun hc => ?_, fun _ => .inl rfl⟩
  exact wp_mono wp_put fun _ _ ht => ⟨hc, ht⟩

theorem wp_drawSprite {sp : Sprite} {x y : Int} :
    wp Drawing (drawSprite sp x y) (fun _ t => ∃ b, t = { c with backbuffer := b }) c := by
  rw [drawSprite, wp_bind, wp_get]
  exact wp_put

end Draw

/-! ## Damage, focus, moves -/

def damage (w : Window) : List DamageRect :=
  if w.hidden || w.minimized then []
  else [⟨i32 (w.x + 0), i32 (w.y + 0), u32 w.width, u32 w.height⟩]

def Globals.mark (s : Globals) (w : Window) : Globals :=
  { s with updateList := s.updateList ++ damage w }

def Window.place (w : Window) (x y : Int) : Window := { w with x := x, y := y }

def Globals.moved (s : Globals) (p : Word) (w : Window) (x y : Int) : Globals :=
  ((s.mark w).setWindow p (w.place x y)).mark (w.place x y)

def Globals.raise (s : Globals) (p : Word) : Globals :=
  { s with focusedWindow := p, topZ := p, midZs := s.midZs.erase p ++ [p] }

/-- The background window, of number 1, does not take the focus. -/
def Globals.focus (s : Globals) (p : Word) (w : Window) : Globals :=
  if w.wid ≤ 1 then s else (s.raise p).mark w

section Marks
variable {E : Fault → Prop} {s : Globals} {p : Word} {w : Window} {Q : Unit → Globals → Prop}

theorem wp_markWindow (h : s.At p w) : wp E (markWindow p) Q s ↔ Q () (s.mark w) := by
  rw [markWindow, wp_bind, wp_window h, markWindowRelative, wp_bind, wp_window h]
  unfold Globals.mark damage
  split
  · rw [wp_pure, List.append_nil]
  · rw [wp_modify]

theorem wp_windowMove {x y : Int} (h : s.At p w) :
    wp E (windowMove p x y) Q s ↔ Q () (s.moved p w x y) := by
  have hm : (s.mark w).At p w := h
  rw [windowMove, wp_bind, wp_markWindow h, wp_bind, wp_window hm, wp_bind]
  exact wp_markWindow hm.setWindow

theorem wp_setFocusWindow (h : s.At p w) :
    wp E (setFocusWindow p) Q s ↔ Q () (s.focus p w) := by
  rw [setFocusWindow, wp_bind, wp_window h, Globals.focus]
  split
  · rw [wp_pure]
  · rw [wp_bind, wp_modify]
    exact wp_markWindow (w := w) h

theorem wp_sendMouseEventMassage {x y : Int} {event : MouseEvent} {buttons : Word}
    (h : s.At p w) : wp E (sendMouseEventMassage p x y event buttons) Q s ↔
      Q () { s with sent := s.sent ++ [(w.owner, .mouseEvent w.wid x y event buttons)] } := by
  rw [sendMouseEventMassage, wp_bind, wp_window h, wp_modify]

end Marks

/-! ## Hit testing -/

/-- The windows from the lowest to the one with the focus. -/
def Globals.hitOrder (s : Globals) : List Word :=
  s.midZs ++ if s.focusedWindow = NULL then [] else [s.focusedWindow]

def Globals.hits (s : Globals) (px py : Int) (p : Word) : Bool :=
  match s.heap p with
  | some w => isInMidSz px py w
  | none => false

def Globals.topOf (s : Globals) (x y : Int) : Word :=
  if x > s.width ∨ y > s.height then NULL
  else (lastOf (s.hits (i32 x) (i32 y)) s.hitOrder).getD NULL

theorem listWalker_eq {s : Globals} {px py : Int} {ps : List Word}
    (h : ∀ p ∈ ps, ∃ w, s.At p w) : listWalker (isInMidSz px py) ps s =
      .ok ((ps.find? (s.hits px py)).getD NULL, s) := by
  induction ps with
  | nil => rfl
  | cons p ps ih =>
    obtain ⟨w, hw⟩ := h p List.mem_cons_self
    have hb : s.hits px py p = isInMidSz px py w := by rw [Globals.hits, hw.2]
    apply run_eq_of_wp
    rw [listWalker, wp_bind, wp_window hw, List.find?_cons, hb]
    cases isInMidSz px py w with
    | true => exact ⟨rfl, rfl⟩
    | false =>
      rw [if_neg Bool.false_ne_true, wp_of_ok (ih fun q hq => h q (List.mem_cons_of_mem _ hq))]
      exact ⟨rfl, rfl⟩

theorem windowTopOf_eq {s : Globals} {x y : Int} (h : ∀ p ∈ s.hitOrder, ∃ w, s.At p w) :
    windowTopOf x y s = .ok (s.topOf x y, s) := by
  have hmid : ∀ p ∈ s.midZs.reverse, ∃ w, s.At p w := fun p hp =>
    h p (List.mem_append_left _ (List.mem_reverse.mp hp))
  have hfoc : ∀ p ∈ (if s.focusedWindow = NULL then [] else [s.focusedWindow]), ∃ w, s.At p w :=
    fun p hp => h p (List.mem_append_right _ hp)
  apply run_eq_of_wp
  rw [windowTopOf, wp_bind, wp_get, Globals.topOf]
  split
  · exact ⟨rfl, rfl⟩
  · rw [wp_bind, wp_of_ok (listWalker_eq hfoc), Globals.hitOrder, lastOf_append]
    have hrev : (if s.focusedWindow = NULL then ([] : List Word) else [s.focusedWindow]).reverse =
        if s.focusedWindow = NULL then [] else [s.focusedWindow] := by
      split <;> rfl
    rw [lastOf, hrev]
    cases hf : List.find? (s.hits (i32 x) (i32 y))
        (if s.focusedWindow = NULL then [] else [s.focusedWindow]) with
    | none =>
      rw [Option.getD_none, if_pos rfl, wp_of_ok (listWalker_eq hmid)]
      exact ⟨rfl, rfl⟩
    | some p =>
      obtain ⟨w, hw⟩ := hfoc p (List.mem_of_find?_eq_some hf)
      rw [Option.getD_some, if_neg hw.1]
      exact ⟨rfl, rfl⟩

end Frog.Compositor
