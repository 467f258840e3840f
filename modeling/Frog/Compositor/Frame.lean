import Frog.Compositor.Paint

/-!
# The whole frame

The picture that a full repaint would show, and which rows of it an event can change: only those
that the event marks, except that a change of the focus also uncovers what the old topmost window
was painted over.
-/

set_option autoImplicit false

namespace Frog.Compositor

open Prog Painter HashMap

/-! ## The frame -/

/-- The pixel of a window at a point, if it is shown there. -/
def Globals.layer (s : Globals) (x y : Int) (p : Word) : Option Word :=
  match s.heap p with
  | some w => if w.Shows x y then some (w.color x y) else none
  | none => none

/-- The plain background under the visible windows in stacking order. -/
def Globals.picture (s : Globals) : Int × Int → Word :=
  s.stack.foldl (fun b p => overlay (fun i => s.layer i.1 i.2 p) b) fun _ => FSK_DARK_CYAN

/-- A pixel with the cursor at `(mx, my)` put over it. -/
def Globals.cursor (s : Globals) (mx my x y : Int) (old : Word) : Word :=
  if s.mouseSprite.Has mx my x y then spritePut s.mouseSprite (x - mx) (y - my) old else old

/-- The picture under the cursor at `(mx, my)`. -/
def Globals.frame (s : Globals) (mx my x y : Int) : Word :=
  s.cursor mx my x y (s.picture (x, y))

/-- A row in the damage list. -/
def Globals.Marked (s : Globals) (y : Int) : Prop :=
  ∃ r ∈ s.updateList, max r.y 0 ≤ y ∧ y < i32 (r.y + i32 r.height)

/-- A pixel of the screen. -/
def Globals.OnScreen (s : Globals) (x y : Int) : Prop :=
  (0 ≤ x ∧ x < s.width) ∧ 0 ≤ y ∧ y < s.height

/-- The rows that are not marked look as they did before. -/
def Globals.SameRows (s t : Globals) : Prop :=
  ∀ x y, s.OnScreen x y → ¬ t.Marked y → ¬ s.Marked y ∧ t.picture (x, y) = s.picture (x, y)

section Layers
variable {s t u : Globals} {p : Word} {w : Window} {x y : Int}

theorem picture_eq : s.picture (x, y) = (topmost (s.layer x y) s.stack).getD FSK_DARK_CYAN :=
  foldl_overlay (fun p (i : Int × Int) => s.layer i.1 i.2 p) (fun _ => FSK_DARK_CYAN) (x, y)

theorem layer_at (h : s.At p w) :
    s.layer x y p = if w.Shows x y then some (w.color x y) else none := by
  rw [Globals.layer, h.2]

theorem layer_of_not_shows (h : s.At p w) (hn : ¬ w.Shows x y) : s.layer x y p = none := by
  rw [layer_at h, if_neg hn]

/-- The damage of a window has all of its rows. -/
theorem damage_covers (hs : w.Sized) (hy : 0 ≤ y ∧ y < 65536) (h : w.Shows x y) :
    ∃ r ∈ damage w, max r.y 0 ≤ y ∧ y < i32 (r.y + i32 r.height) := by
  obtain ⟨⟨hh, hm⟩, -, hrow⟩ := h
  have hY := hs.y
  have hH := hs.height
  unfold IsInt at hY
  rw [damage, hh, hm]
  refine ⟨_, List.mem_singleton_self _, ?_⟩
  simp only
  have hheight : i32 (u32 w.height) = w.height := by
    rw [u32_of_small hH.1 (by omega), i32_of_small (by omega) (by omega)]
  rw [add_zero, i32_of_small hY.1 hY.2, hheight, i32_of_small (by omega) (by omega)]
  omega

theorem not_shows_of_not_marked (hs : w.Sized) (hy : 0 ≤ y ∧ y < 65536)
    (hsub : damage w ⊆ s.updateList) (hn : ¬ s.Marked y) : ¬ w.Shows x y := by
  intro h
  obtain ⟨r, hr, hrow⟩ := damage_covers hs hy h
  exact hn ⟨r, hsub hr, hrow⟩

theorem not_marked_of_subset (hsub : s.updateList ⊆ t.updateList) (hn : ¬ t.Marked y) :
    ¬ s.Marked y := fun ⟨r, hr, hrow⟩ => hn ⟨r, hsub hr, hrow⟩

end Layers

/-! ## What the events change -/

section Events
variable {s t : Globals} {p win : Word} {w : Window} {x y : Int}

theorem Idle.picture (h : Idle s t) : t.picture = s.picture := by
  obtain ⟨_, _, _, _, _, _, _, -, rfl⟩ := h
  rfl

theorem Idle.marked (h : Idle s t) : t.Marked y ↔ s.Marked y := by
  obtain ⟨_, _, _, _, _, _, _, -, rfl⟩ := h
  rfl

theorem Globals.SameRows.idle {u : Globals} (h : s.SameRows t) (hi : Idle t u) :
    s.SameRows u := by
  intro x y hxy hn
  rw [hi.picture]
  exact h x y hxy fun hm => hn (hi.marked.mpr hm)

theorem Globals.SameRows.refl (s : Globals) : s.SameRows s := fun _ _ _ hn => ⟨hn, rfl⟩

theorem Globals.Real.height_lt (h : s.Real) : s.height < 65536 := h.2.2 ▸ h.1.height_lt

/-- A new window changes its own rows. -/
theorem sameRows_created (hi : Inv s) (hr : s.Real) (hw : w.Sized) (hfree : s.heap win = none)
    (m : Hashmap) : s.SameRows (s.created win m w) := by
  intro x y hxy hn
  have hy : 0 ≤ y ∧ y < 65536 := ⟨hxy.2.1, lt_trans hxy.2.2 hr.height_lt⟩
  have hshow : ¬ w.Shows x y :=
    not_shows_of_not_marked hw hy (List.subset_append_right _ _) hn
  refine ⟨not_marked_of_subset (List.subset_append_left _ _) hn, ?_⟩
  rw [picture_eq, picture_eq]
  congr 1
  have hlayer : ∀ q ∈ s.stack, (s.created win m w).layer x y q = s.layer x y q := by
    intro q hq
    obtain ⟨v, hv⟩ := hi.exists_at (hi.mem_stack hq)
    have hne : q ≠ win := by
      rintro rfl
      cases hfree.symm.trans hv.2
    have hheap : (s.created win m w).heap q = s.heap q := Function.update_of_ne hne ..
    rw [Globals.layer, Globals.layer, hheap]
  have hwin : (s.created win m w).layer x y win = none := by
    have hheap : (s.created win m w).heap win = some w := Function.update_self ..
    rw [Globals.layer, hheap]
    exact if_neg hshow
  have hstack : (s.created win m w).stack =
      (s.midZs ++ [win]) ++ if s.topZ = NULL then [] else [s.topZ] := rfl
  rw [hstack, topmost_append, topmost_append, topmost_singleton, hwin, Option.none_or,
    ← topmost_append]
  exact topmost_congr hlayer

/-- A move changes the old and the new rows. -/
theorem sameRows_moved (hr : s.Real) (hs : s.Sized) (hw : s.At p w) {x' y' : Int}
    (hx : IsInt x') (hy' : IsInt y') : s.SameRows (s.moved p w x' y') := by
  intro x y hxy hn
  have hy : 0 ≤ y ∧ y < 65536 := ⟨hxy.2.1, lt_trans hxy.2.2 hr.height_lt⟩
  have hsz := hs p w hw.2
  have hplace : (w.place x' y').Sized := ⟨hx, hy', hsz.height, hsz.width, hsz.opaqued⟩
  have hul : (s.moved p w x' y').updateList =
      (s.updateList ++ damage w) ++ damage (w.place x' y') := rfl
  have hold : ¬ w.Shows x y := by
    refine not_shows_of_not_marked hsz hy ?_ hn
    rw [hul]
    exact List.Subset.trans (List.subset_append_right _ _) (List.subset_append_left _ _)
  have hnew : ¬ (w.place x' y').Shows x y := by
    refine not_shows_of_not_marked hplace hy ?_ hn
    rw [hul]
    exact List.subset_append_right _ _
  refine ⟨not_marked_of_subset ?_ hn, ?_⟩
  · rw [hul]
    exact List.Subset.trans (List.subset_append_left _ _) (List.subset_append_left _ _)
  rw [picture_eq, picture_eq]
  congr 1
  refine topmost_congr fun q hq => ?_
  by_cases hq' : q = p
  · subst hq'
    have hat : (s.moved q w x' y').At q (w.place x' y') := ⟨hw.1, Function.update_self ..⟩
    rw [layer_of_not_shows hw hold, layer_of_not_shows hat hnew]
  · have hheap : (s.moved p w x' y').heap q = s.heap q := Function.update_of_ne hq' ..
    rw [Globals.layer, Globals.layer, hheap]

/-- A closed window changes its own rows. -/
theorem sameRows_closed (hr : s.Real) (hs : s.Sized) (hw : s.At p w) (m : Hashmap) :
    s.SameRows ((s.mark w).closed p m) := by
  intro x y hxy hn
  have hy : 0 ≤ y ∧ y < 65536 := ⟨hxy.2.1, lt_trans hxy.2.2 hr.height_lt⟩
  have hshow : ¬ w.Shows x y :=
    not_shows_of_not_marked (hs p w hw.2) hy (List.subset_append_right _ _) hn
  refine ⟨not_marked_of_subset (List.subset_append_left _ _) hn, ?_⟩
  rw [picture_eq, picture_eq]
  congr 1
  have hnone := layer_of_not_shows hw hshow
  have hlayer : Globals.layer ((s.mark w).closed p m) x y = s.layer x y := by
    funext q
    by_cases hq : q = p
    · subst hq
      have hheap : ((s.mark w).closed q m).heap q = none := Function.update_self ..
      rw [hnone, Globals.layer, hheap]
    · have hheap : ((s.mark w).closed p m).heap q = s.heap q := Function.update_of_ne hq ..
      rw [Globals.layer, Globals.layer, hheap]
  have hstack : ((s.mark w).closed p m).stack =
      s.midZs.erase p ++ if s.topZ = NULL then [] else [s.topZ] := rfl
  rw [hlayer, hstack, topmost_append, topmost_erase hnone, ← topmost_append]
  rfl

/-- In the rows that the new focus does not mark, the old topmost window is not painted over a
regular window that comes after it. -/
def Globals.Undisturbed (s : Globals) (p : Word) (w : Window) : Prop :=
  ∀ v l₁ l₂, s.At s.topZ v → s.midZs = l₁ ++ s.topZ :: l₂ →
    ∀ q ∈ l₂, ∀ u, s.At q u → ∀ x y, s.OnScreen x y → v.Shows x y → u.Shows x y →
      (s.focus p w).Marked y

/-- A change of the focus changes the rows of the new topmost window, if the old one was not in
front of others. -/
theorem sameRows_focus (hi : Inv s) (hr : s.Real) (hs : s.Sized) (hw : s.At p w)
    (hu : 1 < w.wid → s.Undisturbed p w) : s.SameRows (s.focus p w) := by
  by_cases hwid : w.wid ≤ 1
  · rw [Globals.focus, if_pos hwid]
    exact .refl s
  have hu := hu (BitVec.not_le.mp hwid)
  unfold Globals.Undisturbed at hu
  have hfocus : s.focus p w = (s.raise p).mark w := if_neg hwid
  rw [hfocus] at hu ⊢
  intro x y hxy hn
  have hy : 0 ≤ y ∧ y < 65536 := ⟨hxy.2.1, lt_trans hxy.2.2 hr.height_lt⟩
  have hshow : ¬ w.Shows x y :=
    not_shows_of_not_marked (hs p w hw.2) hy (List.subset_append_right _ _) hn
  refine ⟨not_marked_of_subset (List.subset_append_left _ _) hn, ?_⟩
  rw [picture_eq, picture_eq]
  congr 1
  have hnone := layer_of_not_shows hw hshow
  have hnew : topmost (s.layer x y) ((s.midZs.erase p ++ [p]) ++ [p]) =
      topmost (s.layer x y) s.midZs := by
    rw [topmost_append, topmost_append, topmost_singleton, hnone, Option.none_or, Option.none_or,
      topmost_erase hnone]
  have hstack : ((s.raise p).mark w).stack = (s.midZs.erase p ++ [p]) ++ [p] := by
    rw [Globals.stack, Globals.mark, Globals.raise]
    simp only [if_neg hw.1]
  have hold : topmost (s.layer x y) s.stack = topmost (s.layer x y) s.midZs := by
    rw [Globals.stack]
    by_cases ht : s.topZ = NULL
    · rw [if_pos ht, List.append_nil]
    · rw [if_neg ht, topmost_append, topmost_singleton]
      obtain ⟨v, hv⟩ := hi.listed_at hi.top ht
      by_cases hvs : v.Shows x y
      · -- nothing after the old topmost window is shown here
        obtain ⟨l₁, l₂, hmid⟩ := List.append_of_mem (hi.mem_midZs.mpr (hi.mem hv))
        have hafter : topmost (s.layer x y) l₂ = none := by
          refine topmost_eq_none.mpr fun q hq => ?_
          have hqm : q ∈ s.midZs := by
            rw [hmid]
            exact List.mem_append_right _ (List.mem_cons_of_mem _ hq)
          obtain ⟨u, hqu⟩ := hi.exists_at (hi.mem_midZs.mp hqm)
          refine layer_of_not_shows hqu fun hus => ?_
          exact hn (hu v l₁ l₂ hv hmid q hq u hqu x y hxy hvs hus)
        have hmidt : topmost (s.layer x y) s.midZs = s.layer x y s.topZ := by
          conv_lhs => rw [hmid]
          rw [topmost_append, topmost_cons, hafter, Option.none_or, layer_at hv, if_pos hvs,
            Option.some_or]
        rw [hmidt]
        exact Option.or_self ..
      · rw [layer_of_not_shows hv hvs, Option.none_or]
  rw [hstack, hold]
  exact hnew

end Events

end Frog.Compositor
