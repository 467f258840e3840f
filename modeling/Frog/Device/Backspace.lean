import Frog.Device.Console

/-!
# Undoing a write

Backspace against the writes before it, in a run of single characters.
-/

namespace Frog.Console

set_option autoImplicit false
open Prog Compositor

/-- The state at the boot, with whatever the memory of the line stack has in it. -/
def boot (lineStack : Nat → EnterStack) : Cursor := ⟨0, 40, 0, lineStack⟩

/-- A backspace after the character takes the cursor back. -/
def Undone (k : Cursor) (c : Byte) : Prop :=
  ∃ l, (moveCursor c >>= fun _ => moveCursor backspace) k = .ok ((), l) ∧ l.baseX = k.baseX ∧
    l.baseY = k.baseY ∧ l.stackPointer = k.stackPointer

/-- In every state of the run the line stack is large enough, and each character that is written
could be undone. -/
def Undoes : List Byte → Cursor → Prop
  | [], k => k.stackPointer ≤ lineStackSize
  | c :: cs, k => k.stackPointer ≤ lineStackSize ∧ (c ≠ backspace → Undone k c) ∧
    ∃ l, moveCursor c k = .ok ((), l) ∧ Undoes cs l

/-- The character does not end the line by itself, unless the cursor is where the first line end was
and nothing is on the stack. -/
def Inside (k : Cursor) : Prop :=
  (k.baseX + 8) % 1000 ≠ 0 ∨ k.stackPointer = 0 ∧ (k.lineStack 0).prevLineX = k.baseX

/-- What a step needs. -/
def StepOk (k : Cursor) (c : Byte) : Prop :=
  if c = backspace then True else if IsEnter c then k.stackPointer < lineStackSize else Inside k

def Guarded : List Byte → Cursor → Prop
  | [], _ => True
  | c :: cs, k => StepOk k c ∧ ∀ l, moveCursor c k = .ok ((), l) → Guarded cs l

variable {k l : Cursor} {c : Byte} {cs : List Byte}

/-! ## Steps -/

/-- The line end that a backspace at the start of a line takes. -/
def Cursor.top (k : Cursor) : Word :=
  if k.stackPointer ≠ 0 then k.stackPointer - 1 else k.stackPointer

theorem top_lt (hsp : k.stackPointer ≤ lineStackSize) : k.top < lineStackSize := by
  unfold Cursor.top
  unfold lineStackSize at *
  split <;> bv_omega

theorem top_eq_iff : k.top = k.stackPointer ↔ k.stackPointer = 0 := by
  unfold Cursor.top
  split
  · constructor
    · intro h
      bv_omega
    · intro h
      contradiction
  · tauto

theorem goBack_start (hx : k.baseX = 0) (htop : k.top < lineStackSize) : goBack k =
    .ok ((), { k with
      baseX := (k.lineStack k.top.toNat).prevLineX
      baseY := k.baseY - 16
      stackPointer := k.top }) := by
  unfold goBack
  rw [bind_ok (get_apply k), if_pos (by rw [hx]; exact BitVec.le_refl _)]
  exact check_bind htop _ _

theorem goBack_inside (hx : k.baseX ≠ 0) :
    goBack k = .ok ((), { k with baseX := k.baseX - 8 }) := by
  have hpos : ¬ k.baseX ≤ 0 := by
    intro hle
    exact hx (BitVec.le_zero_iff.mp hle)
  unfold goBack
  rw [bind_ok (get_apply k), if_neg hpos]
  rfl

theorem enter_room (h : k.stackPointer < lineStackSize) : enter k =
    .ok ((), {
      baseX := 0
      baseY := k.baseY + 16
      stackPointer := k.stackPointer + 1
      lineStack := Function.update k.lineStack k.stackPointer.toNat ⟨k.baseY, k.baseX⟩ }) := by
  unfold enter
  rw [bind_ok (get_apply k)]
  exact check_bind h _ _

theorem advance_wraps (h : (k.baseX + 8) % 1000 = 0) :
    advance k = .ok ((), { k with baseX := 0, baseY := k.baseY + 16 }) := by
  unfold advance
  rw [bind_ok (get_apply k)]
  exact congrFun (if_pos h) k

theorem advance_inside (h : (k.baseX + 8) % 1000 ≠ 0) :
    advance k = .ok ((), { k with baseX := k.baseX + 8 }) := by
  unfold advance
  rw [bind_ok (get_apply k)]
  exact congrFun (if_neg h) k

theorem moveCursor_enter (h : IsEnter c) : moveCursor c = enter := by
  have hne : c ≠ backspace := by
    intro hc
    subst hc
    exact absurd h (by decide)
  unfold moveCursor
  rw [if_neg hne, if_pos h]

theorem moveCursor_text (hback : c ≠ backspace) (henter : ¬ IsEnter c) : moveCursor c = advance := by
  unfold moveCursor
  rw [if_neg hback, if_neg henter]

theorem moveCursor_back : moveCursor backspace = goBack := if_pos rfl

/-! ## One character and a backspace -/

theorem undone_of_run (h : moveCursor c k = .ok ((), l)) : Undone k c ↔
    ∃ m, goBack l = .ok ((), m) ∧ m.baseX = k.baseX ∧ m.baseY = k.baseY ∧
      m.stackPointer = k.stackPointer := by
  unfold Undone
  rw [bind_ok h, moveCursor_back]

/-- The line end that the newline has recorded is taken back. -/
theorem undone_enter (h : IsEnter c) (hroom : k.stackPointer < lineStackSize) : Undone k c := by
  have hrun := enter_room hroom
  rw [← moveCursor_enter h] at hrun
  apply (undone_of_run hrun).mpr
  have hne : k.stackPointer + 1 ≠ 0 := by
    unfold lineStackSize at hroom
    bv_omega
  have htop : ∀ x y stack, (Cursor.mk x y (k.stackPointer + 1) stack).top = k.stackPointer := by
    intro x y stack
    unfold Cursor.top
    rw [if_pos hne, add_sub_cancel_right]
  refine ⟨_, goBack_start rfl (by rw [htop]; exact hroom), ?_, ?_, ?_⟩
  · rw [htop]
    change (Function.update k.lineStack k.stackPointer.toNat _ k.stackPointer.toNat).prevLineX = _
    rw [Function.update_self]
  · exact add_sub_cancel_right k.baseY 16
  · exact htop ..

/-- A full line stack has no room for another line end. -/
theorem not_undone_enter (h : IsEnter c) (hfull : ¬ k.stackPointer < lineStackSize) : ¬ Undone k c := by
  intro hu
  obtain ⟨m, hm, -⟩ := hu
  obtain ⟨u, l, hrun, -⟩ := bind_eq_ok.mp hm
  rw [moveCursor_enter h] at hrun
  unfold enter at hrun
  rw [bind_ok (get_apply k)] at hrun
  obtain ⟨u, l, hcheck, -⟩ := bind_eq_ok.mp hrun
  exact hfull (check_eq_ok.mp hcheck).1

theorem undone_text_iff (hback : c ≠ backspace) (henter : ¬ IsEnter c)
    (hsp : k.stackPointer ≤ lineStackSize) : Undone k c ↔ Inside k := by
  by_cases hwrap : (k.baseX + 8) % 1000 = 0
  · have hrun := advance_wraps hwrap
    rw [← moveCursor_text hback henter] at hrun
    have htop := top_lt hsp
    have hgo := goBack_start (k := { k with baseX := 0, baseY := k.baseY + 16 }) rfl htop
    rw [undone_of_run hrun, hgo]
    unfold Inside
    constructor
    · intro hu
      obtain ⟨m, hm, hx, -, hsp'⟩ := hu
      obtain rfl := (Prod.mk.inj (Except.ok.inj hm)).2
      have htop' : k.top = k.stackPointer := hsp'
      have hzero := top_eq_iff.mp htop'
      rw [hzero] at htop'
      refine .inr ⟨hzero, ?_⟩
      rw [← hx]
      change _ = (k.lineStack k.top.toNat).prevLineX
      rw [htop']
      rfl
    · intro hin
      rcases hin with hne | ⟨hzero, hx⟩
      · exact absurd hwrap hne
      · have htop' : k.top = 0 := (top_eq_iff.mpr hzero).trans hzero
        refine ⟨_, rfl, ?_, ?_, ?_⟩
        · change (k.lineStack k.top.toNat).prevLineX = k.baseX
          rw [htop']
          exact hx
        · exact add_sub_cancel_right k.baseY 16
        · exact htop'.trans hzero.symm
  · have hrun := advance_inside hwrap
    rw [← moveCursor_text hback henter] at hrun
    have hne : k.baseX + 8 ≠ 0 := by
      intro hzero
      rw [hzero] at hwrap
      exact hwrap rfl
    rw [undone_of_run hrun]
    constructor
    · intro _
      exact .inl hwrap
    · intro _
      exact ⟨_, goBack_inside hne, add_sub_cancel_right k.baseX 8, rfl, rfl⟩

theorem undone_iff (hback : c ≠ backspace) (hsp : k.stackPointer ≤ lineStackSize) :
    Undone k c ↔ StepOk k c := by
  unfold StepOk
  rw [if_neg hback]
  by_cases henter : IsEnter c
  · rw [if_pos henter]
    by_cases hroom : k.stackPointer < lineStackSize
    · exact iff_of_true (undone_enter henter hroom) hroom
    · exact iff_of_false (not_undone_enter henter hroom) hroom
  · rw [if_neg henter]
    exact undone_text_iff hback henter hsp

/-! ## Runs -/

/-- A step that is in order keeps the line stack large enough. -/
theorem moveCursor_stays (h : StepOk k c) (hsp : k.stackPointer ≤ lineStackSize) :
    ∃ l, moveCursor c k = .ok ((), l) ∧ l.stackPointer ≤ lineStackSize := by
  by_cases hback : c = backspace
  · rw [hback, moveCursor_back]
    have htop := top_lt hsp
    by_cases hx : k.baseX = 0
    · exact ⟨_, goBack_start hx htop, BitVec.le_of_lt htop⟩
    · exact ⟨_, goBack_inside hx, hsp⟩
  · unfold StepOk at h
    rw [if_neg hback] at h
    by_cases henter : IsEnter c
    · rw [if_pos henter] at h
      rw [moveCursor_enter henter]
      refine ⟨_, enter_room h, ?_⟩
      change k.stackPointer + 1 ≤ lineStackSize
      unfold lineStackSize at *
      bv_omega
    · rw [moveCursor_text hback henter]
      by_cases hwrap : (k.baseX + 8) % 1000 = 0
      · exact ⟨_, advance_wraps hwrap, hsp⟩
      · exact ⟨_, advance_inside hwrap, hsp⟩

theorem undoes_iff_guarded (hsp : k.stackPointer ≤ lineStackSize) : Undoes cs k ↔ Guarded cs k := by
  induction cs generalizing k with
  | nil => exact iff_of_true hsp trivial
  | cons c cs ih =>
    constructor
    · intro h
      obtain ⟨-, hundone, l, hrun, hrest⟩ := h
      have hok : StepOk k c := by
        by_cases hback : c = backspace
        · unfold StepOk
          rw [if_pos hback]
          trivial
        · exact (undone_iff hback hsp).mp (hundone hback)
      refine ⟨hok, ?_⟩
      intro l' hrun'
      obtain rfl : l' = l := (Prod.mk.inj (Except.ok.inj (hrun'.symm.trans hrun))).2
      obtain ⟨m, hm, hle⟩ := moveCursor_stays hok hsp
      obtain rfl : m = l' := (Prod.mk.inj (Except.ok.inj (hm.symm.trans hrun))).2
      exact (ih hle).mp hrest
    · intro h
      obtain ⟨hok, hrest⟩ := h
      obtain ⟨l, hrun, hle⟩ := moveCursor_stays hok hsp
      exact ⟨hsp, fun hback => (undone_iff hback hsp).mpr hok, l, hrun,
        (ih hle).mpr (hrest l hrun)⟩

/-- In a run from the boot every character can be undone exactly when no newline overruns the line
stack and no character fills a line. -/
theorem undoes_iff {lineStack : Nat → EnterStack} :
    Undoes cs (boot lineStack) ↔ Guarded cs (boot lineStack) :=
  undoes_iff_guarded (show (0 : Word) ≤ 100 by decide)

/-- The cursor after the characters of a line. -/
theorem guarded_line {n m : Nat} {text : Byte} (hback : text ≠ backspace) (henter : ¬ IsEnter text)
    (hk : k.baseX = BitVec.ofNat 32 (8 * m)) (hle : m + n ≤ 124)
    (h : Guarded (List.replicate n text ++ cs) k) :
    Guarded cs { k with baseX := BitVec.ofNat 32 (8 * (m + n)) } := by
  induction n generalizing k m with
  | zero =>
    rw [Nat.add_zero, ← hk]
    exact h
  | succ n ih =>
    have hnext : k.baseX + 8 = BitVec.ofNat 32 (8 * (m + 1)) := by
      rw [hk]
      exact BitVec.ofNat_add_ofNat ..
    have hinside : (k.baseX + 8) % 1000 ≠ 0 := by
      intro hzero
      have hnat := congrArg BitVec.toNat hzero
      rw [hnext, BitVec.toNat_umod, BitVec.toNat_ofNat] at hnat
      change 8 * (m + 1) % 2 ^ 32 % 1000 = 0 at hnat
      rw [Nat.mod_eq_of_lt (a := 8 * (m + 1)) (by omega)] at hnat
      omega
    have hrun := advance_inside hinside
    rw [← moveCursor_text hback henter] at hrun
    have hrest := ih (m := m + 1) hnext (by omega) (h.2 _ hrun)
    rw [Nat.add_right_comm, Nat.add_assoc] at hrest
    exact hrest

/-- The 125th character of a line, and a newline at the end of a full stack. -/
theorem last_column : ¬ Undoes (List.replicate 124 0x61 ++ [0x61]) (boot fun _ => ⟨0, 0⟩) ∧
    ¬ Undone ⟨0, 1640, 100, fun _ => ⟨0, 0⟩⟩ 0x0A := by
  constructor
  · intro h
    have hguarded := (undoes_iff_guarded (by decide)).mp h
    have hlast := guarded_line (m := 0) (by decide) (by decide) rfl (by decide) hguarded
    have hinside : Inside { boot (fun _ => ⟨0, 0⟩) with baseX := 992 } := hlast.1
    exact absurd hinside (by unfold Inside boot; decide)
  · exact not_undone_enter (by decide) (by decide)

end Frog.Console
