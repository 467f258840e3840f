import Frog.Compositor.Outcome
import Frog.Lib.Runs

/-!
# The window pointers

`Inv` says that the four pointers to windows are `NULL` or listed and that the hash map is the list
by window numbers. It is kept as long as no closed window is one of the pointed-at windows, `malloc`
and the counter of window numbers give fresh values, and the mouse is over a window when it has to
be.
-/

set_option autoImplicit false

namespace Frog.Compositor

open Prog Painter HashMap

/-- `NULL` or a window of the list. -/
def Globals.Listed (s : Globals) (p : Word) : Prop := p = NULL ∨ p ∈ s.windows

structure Inv (s : Globals) : Prop where
  wide : 0 < s.width ∧ s.width < 65536
  high : 0 < s.height ∧ s.height < 65536
  null : NULL ∉ s.windows
  nodup : s.windows.Nodup
  live : ∀ p, p ∈ s.windows ↔ ∃ w, s.heap p = some w
  mid : s.midZs.Perm s.windows
  map : ∃ spec, Holds s.changes s.widsToWindows spec ∧
    ∀ wid p, spec wid = some p ↔ ∃ w, s.heap p = some w ∧ w.wid = wid
  bottom : s.Listed s.bottomZ
  top : s.Listed s.topZ
  mouse : s.Listed s.mouseWindow
  focused : s.focusedWindow = s.topZ

/-! ## What the invariant gives -/

namespace Inv

variable {s : Globals} {p : Word} {w v : Window} {wid : Word}

theorem exists_at (h : Inv s) (hp : p ∈ s.windows) : ∃ w, s.At p w := by
  obtain ⟨w, hw⟩ := (h.live p).mp hp
  refine ⟨w, ?_, hw⟩
  rintro rfl
  exact h.null hp

theorem mem (h : Inv s) (hw : s.At p w) : p ∈ s.windows := (h.live p).mpr ⟨w, hw.2⟩

theorem listed_at (h : Inv s) (hp : s.Listed p) (hn : p ≠ NULL) : ∃ w, s.At p w :=
  h.exists_at (hp.resolve_left hn)

theorem mem_midZs (h : Inv s) : p ∈ s.midZs ↔ p ∈ s.windows := h.mid.mem_iff

theorem mem_of_hitOrder (h : Inv s) (hp : p ∈ s.hitOrder) : p ∈ s.windows := by
  rcases List.mem_append.mp hp with hp | hp
  · exact h.mem_midZs.mp hp
  · split at hp
    · cases hp
    · rename_i hn
      obtain rfl := List.mem_singleton.mp hp
      rw [h.focused] at hn ⊢
      exact h.top.resolve_left hn

theorem windowTopOf_eq (h : Inv s) (x y : Int) : windowTopOf x y s = .ok (s.topOf x y, s) :=
  Compositor.windowTopOf_eq fun _ hp => h.exists_at (h.mem_of_hitOrder hp)

theorem topOf_listed (h : Inv s) (x y : Int) : s.Listed (s.topOf x y) := by
  rw [Globals.topOf]
  split
  · exact .inl rfl
  · cases ho : lastOf (s.hits (i32 x) (i32 y)) s.hitOrder with
    | none => exact .inl rfl
    | some p => exact .inr (h.mem_of_hitOrder (lastOf_mem ho).1)

/-- A point of the screen has a top window when some window is hit there. -/
theorem topOf_ne_null (h : Inv s) {x y : Int} (hx : 0 ≤ x ∧ x < s.width)
    (hy : 0 ≤ y ∧ y < s.height) :
    s.topOf (u32 x) (u32 y) ≠ NULL ↔ ∃ p ∈ s.windows, s.hits x y p = true := by
  have hw := h.wide
  have hh := h.high
  rw [u32_of_small hx.1 (by omega), u32_of_small hy.1 (by omega), Globals.topOf,
    if_neg (by omega), i32_of_small (by omega) (by omega), i32_of_small (by omega) (by omega)]
  cases ho : lastOf (s.hits x y) s.hitOrder with
  | none =>
    rw [Option.getD_none]
    constructor
    · intro hn
      exact absurd rfl hn
    · rintro ⟨p, hp, hh⟩
      have hf := lastOf_eq_none.mp ho p (List.mem_append_left _ (h.mem_midZs.mpr hp))
      rw [hh] at hf
      cases hf
  | some p =>
    obtain ⟨hp, hh⟩ := lastOf_mem ho
    rw [Option.getD_some]
    constructor
    · intro _
      exact ⟨p, h.mem_of_hitOrder hp, hh⟩
    · rintro _ rfl
      exact h.null (h.mem_of_hitOrder hp)

theorem get (h : Inv s) (wid : Word) :
    ∃ p, onMap (fun fuel => hashmapGet fuel wid) s = .ok (p, s) ∧ s.Listed p ∧
      ∀ q w, s.heap q = some w → w.wid = wid → p = q := by
  obtain ⟨spec, hh, hs⟩ := h.map
  obtain ⟨p, hrun, hp, hk⟩ := hh.get_mem (Nat.le_succ _) wid
  refine ⟨p, onMap_ok hrun, ?_, ?_⟩
  · rcases hp with rfl | ⟨k, hk⟩
    · exact .inl rfl
    · obtain ⟨w, hw, -⟩ := (hs k p).mp hk
      exact .inr ((h.live p).mpr ⟨w, hw⟩)
  · intro q w hq hw
    exact hk q ((hs wid q).mpr ⟨w, hq, hw⟩)

theorem has (h : Inv s) (wid : Word) :
    ∃ b, onMap (fun fuel => hashmapHas fuel wid) s = .ok (b, s) ∧
      (b = true ↔ ∃ p w, s.heap p = some w ∧ w.wid = wid) := by
  obtain ⟨spec, hh, hs⟩ := h.map
  refine ⟨_, onMap_ok (hh.has (Nat.le_succ _) wid), ?_⟩
  rw [Option.isSome_iff_exists]
  exact exists_congr fun p => hs wid p

/-- Two windows have different numbers. -/
theorem eq_of_wid (h : Inv s) {q : Word} (hp : s.heap p = some w) (hq : s.heap q = some v)
    (hw : w.wid = v.wid) : p = q := by
  obtain ⟨spec, -, hs⟩ := h.map
  have h1 := (hs w.wid p).mpr ⟨w, hp, rfl⟩
  have h2 := (hs w.wid q).mpr ⟨v, hq, hw.symm⟩
  exact Option.some.inj (h1.symm.trans h2)

/-! ## What keeps it -/

theorem mark (h : Inv s) (w : Window) : Inv (s.mark w) :=
  ⟨h.wide, h.high, h.null, h.nodup, h.live, h.mid, h.map, h.bottom, h.top, h.mouse, h.focused⟩

theorem setWindow (h : Inv s) (hp : s.At p w) (hv : v.wid = w.wid) : Inv (s.setWindow p v) := by
  refine ⟨h.wide, h.high, h.null, h.nodup, fun q => ?_, h.mid, ?_, h.bottom, h.top, h.mouse,
    h.focused⟩
  · refine (h.live q).trans ?_
    by_cases hq : q = p
    · subst hq
      simp [Globals.setWindow, hp.2]
    · simp [Globals.setWindow, Function.update_of_ne hq]
  · obtain ⟨spec, hh, hs⟩ := h.map
    refine ⟨spec, hh, fun wid q => (hs wid q).trans ?_⟩
    by_cases hq : q = p
    · subst hq
      simp [Globals.setWindow, hp.2, hv]
    · simp [Globals.setWindow, Function.update_of_ne hq]

theorem moved (h : Inv s) (hp : s.At p w) (x y : Int) : Inv (s.moved p w x y) := by
  have hm : (s.mark w).At p w := hp
  exact ((h.mark w).setWindow (v := w.place x y) hm rfl).mark _

theorem focus (h : Inv s) (hp : s.At p w) : Inv (s.focus p w) := by
  rw [Globals.focus]
  split
  · exact h
  · apply Inv.mark
    have hmid := h.mem_midZs.mpr (h.mem hp)
    refine ⟨h.wide, h.high, h.null, h.nodup, h.live, ?_, h.map, h.bottom, .inr (h.mem hp), h.mouse,
      rfl⟩
    exact (List.perm_append_singleton _ _).trans ((List.perm_cons_erase hmid).symm.trans h.mid)

end Inv

/-! ## Creating and closing -/

/-- A new window with the next number, on top of the regular windows. -/
def Globals.opened (s : Globals) (win : Word) (m : Hashmap) (w : Window) : Globals :=
  { s with
    windows := s.windows ++ [win], midZs := s.midZs ++ [win], widsToWindows := m,
    changes := s.changes + 1, heap := Function.update s.heap win (some w),
    winIdCount := s.winIdCount + 1 }

def Globals.closed (s : Globals) (p : Word) (m : Hashmap) : Globals :=
  { s with
    windows := s.windows.erase p, midZs := s.midZs.erase p, widsToWindows := m,
    changes := s.changes + 1, heap := Function.update s.heap p none }

section Windows
variable {s : Globals} {p win : Word} {w : Window} {m : Hashmap} {a : Addr}

/-- The number is not in use. -/
def Globals.Unused (s : Globals) (wid : Word) : Prop :=
  ∀ p w, s.heap p = some w → w.wid ≠ wid

theorem Inv.opened (h : Inv s) (hwin : win ≠ NULL) (hfree : s.heap win = none)
    (hw : s.Unused w.wid)
    (hm : HashMap.Step (s.changes + 1) s.widsToWindows (.set w.wid win) m) :
    Inv (s.opened win m w) := by
  have hnew : win ∉ s.windows := by
    intro hm
    obtain ⟨v, hv⟩ := (h.live win).mp hm
    rw [hfree] at hv
    cases hv
  have hmono : ∀ {q}, s.Listed q → (s.opened win m w).Listed q := fun hq =>
    hq.imp_right (List.mem_append_left _)
  refine ⟨h.wide, h.high, ?_, ?_, fun q => ?_, h.mid.append_right _, ?_, hmono h.bottom,
    hmono h.top, hmono h.mouse, h.focused⟩
  · intro hn
    rcases List.mem_append.mp hn with hn | hn
    · exact h.null hn
    · exact hwin (List.mem_singleton.mp hn).symm
  · exact h.nodup.append (List.nodup_singleton _) (List.disjoint_singleton.mpr hnew)
  · change q ∈ s.windows ++ [win] ↔ ∃ v, Function.update s.heap win (some w) q = some v
    rw [List.mem_append, List.mem_singleton]
    by_cases hq : q = win
    · subst hq
      simp
    · rw [Function.update_of_ne hq, ← h.live q]
      simp [hq]
  · obtain ⟨spec, hh, hs⟩ := h.map
    have habsent : spec w.wid = none := by
      cases ho : spec w.wid with
      | none => rfl
      | some q =>
        obtain ⟨v, hv, hwid⟩ := (hs _ _).mp ho
        exact absurd hwid (hw q v hv)
    refine ⟨_, hh.step hm (Nat.lt_succ_self _) ?_, fun wid q => ?_⟩
    · intro key value he
      obtain ⟨rfl, rfl⟩ := HashMap.Op.set.inj he
      exact habsent
    · change Function.update spec w.wid (some win) wid = some q ↔
        ∃ v, Function.update s.heap win (some w) q = some v ∧ v.wid = wid
      by_cases hq : q = win
      · subst hq
        rw [Function.update_self]
        by_cases hwid : wid = w.wid
        · subst hwid
          simp
        · rw [Function.update_of_ne hwid, hs wid q, hfree]
          simp [Ne.symm hwid]
      · rw [Function.update_of_ne hq, ← hs wid q]
        by_cases hwid : wid = w.wid
        · subst hwid
          rw [Function.update_self, habsent]
          simp [Ne.symm hq]
        · rw [Function.update_of_ne hwid]

theorem Inv.closed (h : Inv s) (hp : s.At p w)
    (ht : p ≠ s.topZ) (hb : p ≠ s.bottomZ) (hg : p ≠ s.mouseWindow)
    (hm : HashMap.Step (s.changes + 1) s.widsToWindows (.remove w.wid) m) :
    Inv (s.closed p m) := by
  have hkeep : ∀ {q}, s.Listed q → p ≠ q → (s.closed p m).Listed q := fun hq hne =>
    hq.imp_right fun hq => (List.mem_erase_of_ne (Ne.symm hne)).mpr hq
  refine ⟨h.wide, h.high, fun hn => h.null (List.mem_of_mem_erase hn), h.nodup.erase _,
    fun q => ?_, h.mid.erase _, ?_, hkeep h.bottom hb, hkeep h.top ht, hkeep h.mouse hg, h.focused⟩
  · change q ∈ s.windows.erase p ↔ ∃ v, Function.update s.heap p none q = some v
    rw [h.nodup.mem_erase_iff]
    by_cases hq : q = p
    · subst hq
      simp
    · rw [Function.update_of_ne hq, ← h.live q]
      simp [hq]
  · obtain ⟨spec, hh, hs⟩ := h.map
    refine ⟨_, hh.step hm (Nat.lt_succ_self _) ?_, fun wid q => ?_⟩
    · intro _ _ he
      cases he
    change Function.update spec w.wid none wid = some q ↔
      ∃ v, Function.update s.heap p none q = some v ∧ v.wid = wid
    by_cases hq : q = p
    · subst hq
      rw [Function.update_self]
      by_cases hwid : wid = w.wid
      · subst hwid
        simp
      · rw [Function.update_of_ne hwid, hs wid q, hp.2]
        simp [Ne.symm hwid]
    · rw [Function.update_of_ne hq, ← hs wid q]
      by_cases hwid : wid = w.wid
      · subst hwid
        rw [Function.update_self]
        constructor
        · intro he
          cases he
        · intro he
          obtain ⟨v, hv, hvw⟩ := (hs _ _).mp he
          exact absurd (h.eq_of_wid hv hp.2 hvw) hq
      · rw [Function.update_of_ne hwid]

end Windows

end Frog.Compositor
