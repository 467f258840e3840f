import Frog.Device.Backspace

/-!
# Writing in chunks

Two calls of `sys_write` against one call with all the bytes.
-/

namespace Frog.Console

set_option autoImplicit false
open Prog Painter Compositor

/-- Two calls and one call leave the same cursor, line stack and picture. -/
def SameInChunks (f : Font) (s : State) (a b : List Byte) : Prop :=
  ∃ n t m u, (sysWrite f a >>= fun _ => sysWrite f b) s = .ok (n, t) ∧
    sysWrite f (a ++ b) s = .ok (m, u) ∧ t.cursor = u.cursor ∧ t.gfx.backbuffer = u.gfx.backbuffer

/-- The field that a backspace fills. -/
def rubField (x y : Word) (g : Context) : Context :=
  fillRect x.toInt y.toInt (x + fontSz).toInt (y + fontSz * 2).toInt
    (FSK_ROSY_BROWN ||| 0xff000000) g

/-- The picture in the back buffer after a backspace at the cursor. -/
def rubbed (g : Context) (x y : Word) : Int → Word := (rubField x y g).backbuffer

/-- The fill of a backspace ends. -/
def RubEnds (x y : Word) : Prop := FillEnds y.toInt (x + fontSz).toInt (y + fontSz * 2).toInt

/-- Nothing, and then a backspace in the last column that finds the column before it in the bottom of
the line stack, where both backspaces leave the same picture. -/
structure LastColumn (s : State) (a b : List Byte) : Prop where
  empty : a = []
  rubs : b.head? = some backspace
  fits : b.length ≤ stagingSize
  column : s.cursor.baseX ≠ 0
  last : (s.cursor.baseX + 8) % 1000 = 0
  stack : s.cursor.stackPointer = 0
  bottom : (s.cursor.lineStack 0).prevLineX = s.cursor.baseX - 8
  ends : RubEnds s.cursor.baseX s.cursor.baseY ∧ RubEnds 0 (s.cursor.baseY + 16)
  picture : rubbed s.gfx s.cursor.baseX s.cursor.baseY = rubbed s.gfx 0 (s.cursor.baseY + 16)

variable {s t u : State} {k l m : Cursor} {f : Font} {a b : List Byte} {n : Nat} {c : Byte}

/-! ## Every write moves the cursor -/

theorem baseX_add_ne (x : Word) : x + 8 ≠ x := by
  bv_omega

theorem advance_ok (h : advance k = .ok ((), l)) :
    (k.baseX + 8) % 1000 = 0 ∧ l = { k with baseX := 0, baseY := k.baseY + 16 } ∨
      (k.baseX + 8) % 1000 ≠ 0 ∧ l = { k with baseX := k.baseX + 8 } := by
  by_cases hwrap : (k.baseX + 8) % 1000 = 0
  · rw [advance_wraps hwrap] at h
    exact .inl ⟨hwrap, (Prod.mk.inj (Except.ok.inj h)).2.symm⟩
  · rw [advance_inside hwrap] at h
    exact .inr ⟨hwrap, (Prod.mk.inj (Except.ok.inj h)).2.symm⟩

theorem enter_ok (h : enter k = .ok ((), l)) : l = {
    baseX := 0
    baseY := k.baseY + 16
    stackPointer := k.stackPointer + 1
    lineStack := Function.update k.lineStack k.stackPointer.toNat ⟨k.baseY, k.baseX⟩ } := by
  by_cases hroom : k.stackPointer < lineStackSize
  · rw [enter_room hroom] at h
    exact (Prod.mk.inj (Except.ok.inj h)).2.symm
  · unfold enter at h
    rw [bind_ok (get_apply k)] at h
    obtain ⟨v, k', hcheck, -⟩ := bind_eq_ok.mp h
    exact absurd (check_eq_ok.mp hcheck).1 hroom

theorem goBack_ok (h : goBack k = .ok ((), l)) :
    k.baseX = 0 ∧ l = { k with
      baseX := (k.lineStack k.top.toNat).prevLineX
      baseY := k.baseY - 16
      stackPointer := k.top } ∨
    k.baseX ≠ 0 ∧ l = { k with baseX := k.baseX - 8 } := by
  by_cases hx : k.baseX = 0
  · refine .inl ⟨hx, ?_⟩
    by_cases htop : k.top < lineStackSize
    · rw [goBack_start hx htop] at h
      exact (Prod.mk.inj (Except.ok.inj h)).2.symm
    · unfold goBack at h
      rw [bind_ok (get_apply k), if_pos (by rw [hx]; exact BitVec.le_refl _)] at h
      obtain ⟨v, k', hcheck, -⟩ := bind_eq_ok.mp h
      exact absurd (check_eq_ok.mp hcheck).1 htop
  · rw [goBack_inside hx] at h
    exact .inr ⟨hx, (Prod.mk.inj (Except.ok.inj h)).2.symm⟩

theorem moveCursor_moves (h : moveCursor c k = .ok ((), l)) : l ≠ k := by
  intro hsame
  subst hsame
  unfold moveCursor at h
  split at h
  · rcases goBack_ok h with ⟨-, hl⟩ | ⟨-, hl⟩
    · have hy : l.baseY = l.baseY - 16 := congrArg Cursor.baseY hl
      bv_omega
    · have hx : l.baseX = l.baseX - 8 := congrArg Cursor.baseX hl
      bv_omega
  · split at h
    · have hy : l.baseY = l.baseY + 16 := congrArg Cursor.baseY (enter_ok h)
      bv_omega
    · rcases advance_ok h with ⟨-, hl⟩ | ⟨-, hl⟩
      · have hy : l.baseY = l.baseY + 16 := congrArg Cursor.baseY hl
        bv_omega
      · have hx : l.baseX = l.baseX + 8 := congrArg Cursor.baseX hl
        bv_omega

/-- The second chunk is a backspace. -/
theorem back_after_nothing (hfirst : advance k = .ok ((), l)) (hsecond : goBack l = .ok ((), m))
    (hone : goBack k = .ok ((), m)) : k.baseX ≠ 0 ∧ (k.baseX + 8) % 1000 = 0 ∧
      k.stackPointer = 0 ∧ (k.lineStack 0).prevLineX = k.baseX - 8 := by
  rcases advance_ok hfirst with ⟨hwrap, rfl⟩ | ⟨hwrap, rfl⟩
  · rcases goBack_ok hsecond with ⟨-, hm⟩ | ⟨hne, -⟩
    · rcases goBack_ok hone with ⟨-, hm'⟩ | ⟨hx, hm'⟩
      · have hy : k.baseY + 16 - 16 = k.baseY - 16 := congrArg Cursor.baseY (hm.symm.trans hm')
        bv_omega
      · have hsp : k.top = k.stackPointer := congrArg Cursor.stackPointer (hm.symm.trans hm')
        have hbase : (k.lineStack k.top.toNat).prevLineX = k.baseX - 8 :=
          congrArg Cursor.baseX (hm.symm.trans hm')
        have hzero := top_eq_iff.mp hsp
        rw [hsp, hzero] at hbase
        exact ⟨hx, hwrap, hzero, hbase⟩
    · exact absurd rfl hne
  · have hne : k.baseX + 8 ≠ 0 := by
      intro hzero
      rw [hzero] at hwrap
      exact hwrap rfl
    rcases goBack_ok hsecond with ⟨hzero, -⟩ | ⟨-, hm⟩
    · exact absurd hzero hne
    · rcases goBack_ok hone with ⟨-, hm'⟩ | ⟨-, hm'⟩
      · have hy : k.baseY = k.baseY - 16 := congrArg Cursor.baseY (hm.symm.trans hm')
        bv_omega
      · have hx : k.baseX + 8 - 8 = k.baseX - 8 := congrArg Cursor.baseX (hm.symm.trans hm')
        bv_omega

/-- A new line keeps where the cursor was. -/
theorem enter_differs (hfirst : advance k = .ok ((), l)) (hsecond : enter l = .ok ((), m)) :
    enter k ≠ .ok ((), m) := by
  intro hone
  have hm := enter_ok hsecond
  have hm' := enter_ok hone
  have hstack := congrArg Cursor.lineStack (hm.symm.trans hm')
  have hy : l.baseY + 16 = k.baseY + 16 := congrArg Cursor.baseY (hm.symm.trans hm')
  rcases advance_ok hfirst with ⟨-, rfl⟩ | ⟨-, rfl⟩
  · have hy' : k.baseY + 16 + 16 = k.baseY + 16 := hy
    bv_omega
  · have hentry := congrFun hstack k.stackPointer.toNat
    have hentry' : (⟨k.baseY, k.baseX + 8⟩ : EnterStack) = ⟨k.baseY, k.baseX⟩ := by
      simpa only [Function.update_self] using hentry
    exact absurd (EnterStack.mk.inj hentry').2 (baseX_add_ne k.baseX)

/-- A cursor that a character has moved forward is only brought back to where a write of the second
chunk alone takes it in the last column. -/
theorem chunk_after_nothing (hfirst : advance k = .ok ((), l)) (hsecond : moveCursor c l = .ok ((), m))
    (hone : moveCursor c k = .ok ((), m)) : c = backspace ∧ k.baseX ≠ 0 ∧ (k.baseX + 8) % 1000 = 0 ∧
      k.stackPointer = 0 ∧ (k.lineStack 0).prevLineX = k.baseX - 8 := by
  by_cases hback : c = backspace
  · rw [hback, moveCursor_back] at hsecond hone
    exact ⟨hback, back_after_nothing hfirst hsecond hone⟩
  · by_cases henter : IsEnter c
    · rw [moveCursor_enter henter] at hsecond hone
      exact absurd hone (enter_differs hfirst hsecond)
    · rw [moveCursor_text hback henter] at hsecond hone
      have hl : m = l := (Prod.mk.inj (Except.ok.inj (hone.symm.trans hfirst))).2
      rw [hl, ← moveCursor_text hback henter] at hsecond
      exact absurd rfl (moveCursor_moves hsecond)

/-! ## Calls -/

theorem staged_head (a : List Byte) (len : Nat) (hlen : 0 < len) :
    (a ++ List.replicate len 0).headD 0 = a.headD 0 := by
  cases a with
  | nil =>
    obtain ⟨len, rfl⟩ := Nat.exists_eq_succ_of_ne_zero (Nat.pos_iff_ne_zero.mp hlen)
    rfl
  | cons x xs => rfl

theorem sysWrite_ok (h : sysWrite f a s = .ok (n, t)) : a.length ≤ stagingSize ∧
    consoleWrite f (a ++ List.replicate (stagingSize - a.length) 0) a.length s = .ok ((), t) := by
  obtain ⟨v, s₁, hcheck, hrest⟩ := bind_eq_ok.mp h
  obtain ⟨hfits, rfl⟩ := check_eq_ok.mp hcheck
  obtain ⟨w, s₂, hwrite, hend⟩ := bind_eq_ok.mp hrest
  rw [← (Prod.mk.inj (Except.ok.inj hend)).2]
  exact ⟨hfits, hwrite⟩

theorem sysWrite_cursor (h : sysWrite f a s = .ok (n, t)) :
    moveCursor (a.headD 0) s.cursor = .ok ((), t.cursor) := by
  obtain ⟨hfits, hwrite⟩ := sysWrite_ok h
  have hcur := consoleWrite_cursor hwrite
  by_cases hlen : 0 < stagingSize - a.length
  · rwa [staged_head a _ hlen] at hcur
  · rwa [Nat.eq_zero_of_not_pos hlen, List.replicate_zero, List.append_nil] at hcur

theorem showDrawn_same (g : Context) :
    (showDrawn g).backbuffer = g.backbuffer ∧ (showDrawn g).pitch = g.pitch := by
  unfold showDrawn gfxFreeClip gfxClearClip Compositor.flip
  split <;> exact ⟨rfl, rfl⟩

theorem sysWrite_of_first (hfits : a.length ≤ stagingSize)
    (h : writeByFirst f (a ++ List.replicate (stagingSize - a.length) 0) a.length s = .ok ((), t)) :
    sysWrite f a s = .ok (a.length, ⟨t.cursor, showDrawn t.gfx⟩) := by
  have hwrite : consoleWrite f (a ++ List.replicate (stagingSize - a.length) 0) a.length s =
      .ok ((), ⟨t.cursor, showDrawn t.gfx⟩) := by
    unfold consoleWrite
    rw [bind_ok h]
    rfl
  unfold sysWrite
  rw [check_bind hfits, bind_ok hwrite]
  rfl

/-- A call with nothing draws nothing. -/
theorem sysWrite_nil (h : advance s.cursor = .ok ((), l)) : ∃ g,
    sysWrite f [] s = .ok (0, ⟨l, g⟩) ∧ g.backbuffer = s.gfx.backbuffer ∧ g.pitch = s.gfx.pitch := by
  have htext : writeText f [] s =
      .ok ((), ⟨l, gfxAddClip l.baseX.toInt l.baseY.toInt 8 16 s.gfx⟩) := by
    unfold writeText
    rw [bind_ok (onCursor_of_ok h)]
    rfl
  obtain ⟨hback, hpitch⟩ := showDrawn_same (gfxAddClip l.baseX.toInt l.baseY.toInt 8 16 s.gfx)
  exact ⟨_, sysWrite_of_first (a := []) (by decide) htext, hback, hpitch⟩

theorem rubOut_eq_ok {x y : Word} {g g' : Context} : rubOut x y g = .ok ((), g') ↔
    RubEnds x y ∧
      g' = rubField x y (gfxAddClip x.toInt y.toInt (x + fontSz).toInt (y + fontSz * 2).toInt g) := by
  unfold rubOut fillRectSolid RubEnds
  rw [bind_ok (modify_apply _ _)]
  by_cases hends : FillEnds y.toInt (x + fontSz).toInt (y + fontSz * 2).toInt
  · rw [check_bind hends, modify_apply]
    constructor
    · intro h
      exact ⟨hends, (Prod.mk.inj (Except.ok.inj h)).2.symm⟩
    · intro h
      rw [h.2]
      rfl
  · constructor
    · intro h
      obtain ⟨v, g₁, hcheck, -⟩ := bind_eq_ok.mp h
      exact absurd (check_eq_ok.mp hcheck).1 hends
    · intro h
      exact absurd h.1 hends

theorem headD_of_head? (hb : b.head? = some backspace) (len : Nat) :
    (b ++ List.replicate len 0).headD 0 = backspace := by
  cases b with
  | nil => cases hb
  | cons x xs => exact Option.some.inj hb

/-- A call that starts with a backspace only rubs out the field at the cursor. -/
theorem sysWrite_back (hfits : b.length ≤ stagingSize) (hb : b.head? = some backspace)
    (hends : RubEnds s.cursor.baseX s.cursor.baseY) (h : goBack s.cursor = .ok ((), l)) : ∃ g,
    sysWrite f b s = .ok (b.length, ⟨l, g⟩) ∧
      g.backbuffer = rubbed s.gfx s.cursor.baseX s.cursor.baseY := by
  have hrub := rubOut_eq_ok (g := s.gfx).mpr ⟨hends, rfl⟩
  have hback : writeBack s = .ok ((), ⟨l, rubField s.cursor.baseX s.cursor.baseY (gfxAddClip
      s.cursor.baseX.toInt s.cursor.baseY.toInt (s.cursor.baseX + fontSz).toInt
      (s.cursor.baseY + fontSz * 2).toInt s.gfx)⟩) := by
    unfold writeBack
    rw [bind_ok (get_apply s), bind_ok (onGfx_of_ok hrub)]
    exact onCursor_of_ok h
  have hfirst : writeByFirst f (b ++ List.replicate (stagingSize - b.length) 0) b.length s =
      writeBack s := by
    unfold writeByFirst
    rw [if_pos (headD_of_head? hb _)]
  rw [hback] at hfirst
  exact ⟨_, sysWrite_of_first hfits hfirst, (showDrawn_same _).1⟩

theorem sysWrite_back_ok (hb : b.head? = some backspace) (h : sysWrite f b s = .ok (n, t)) :
    RubEnds s.cursor.baseX s.cursor.baseY ∧
      t.gfx.backbuffer = rubbed s.gfx s.cursor.baseX s.cursor.baseY := by
  have hcur := sysWrite_cursor h
  obtain ⟨hfits, hwrite⟩ := sysWrite_ok h
  obtain ⟨v, s₁, hfirst, -⟩ := bind_eq_ok.mp hwrite
  have hends : RubEnds s.cursor.baseX s.cursor.baseY := by
    unfold writeByFirst at hfirst
    rw [if_pos (headD_of_head? hb _)] at hfirst
    change (onGfx (rubOut s.cursor.baseX s.cursor.baseY) >>= fun _ => onCursor goBack) s = _ at hfirst
    obtain ⟨w, s₂, hrub, -⟩ := bind_eq_ok.mp hfirst
    exact (rubOut_eq_ok.mp (onGfx_ok hrub).1).1
  have hgo : goBack s.cursor = .ok ((), t.cursor) := by
    rwa [List.headD_eq_head?_getD, hb, Option.getD_some, moveCursor_back] at hcur
  obtain ⟨g, hrun, hpicture⟩ := sysWrite_back hfits hb hends hgo
  have ht : t = ⟨t.cursor, g⟩ := (Prod.mk.inj (Except.ok.inj (h.symm.trans hrun))).2
  rw [ht]
  exact ⟨hends, hpicture⟩

/-! ## Chunks -/

theorem sameInChunks_nil (h : advance s.cursor = .ok ((), l)) :
    ∃ g, g.backbuffer = s.gfx.backbuffer ∧ g.pitch = s.gfx.pitch ∧
      (SameInChunks f s [] b ↔ ∃ n t m u, sysWrite f b ⟨l, g⟩ = .ok (n, t) ∧
        sysWrite f b s = .ok (m, u) ∧ t.cursor = u.cursor ∧
        t.gfx.backbuffer = u.gfx.backbuffer) := by
  obtain ⟨g, hrun, hback, hpitch⟩ := sysWrite_nil (f := f) h
  refine ⟨g, hback, hpitch, ?_⟩
  unfold SameInChunks
  rw [bind_ok hrun, List.nil_append]

theorem rubbed_congr {g g' : Context} (hback : g.backbuffer = g'.backbuffer)
    (hpitch : g.pitch = g'.pitch) (x y : Word) : rubbed g x y = rubbed g' x y := by
  unfold rubbed rubField fillRect paint pixelAt Context.index
  rw [hback, hpitch]

/-- The second of two calls moves the cursor away from where one call leaves it. -/
theorem not_sameInChunks (ha : a ≠ []) : ¬ SameInChunks f s a b := by
  intro h
  obtain ⟨n, t, m, u, htwo, hone, hcursor, -⟩ := h
  obtain ⟨n₁, t₁, hfirst, hsecond⟩ := bind_eq_ok.mp htwo
  have hcur₁ := sysWrite_cursor hfirst
  have hcur := sysWrite_cursor hone
  cases a with
  | nil => exact ha rfl
  | cons x xs =>
    have hsame : u.cursor = t₁.cursor := (Prod.mk.inj (Except.ok.inj (hcur.symm.trans hcur₁))).2
    exact absurd (hcursor.trans hsame) (moveCursor_moves (sysWrite_cursor hsecond))

theorem lastColumn_of_same (h : SameInChunks f s [] b) : LastColumn s [] b := by
  obtain ⟨n, t, m, u, htwo, hone, hcursor, -⟩ := id h
  obtain ⟨n₁, t₁, hfirst, hsecond⟩ := bind_eq_ok.mp htwo
  have hadvance : advance s.cursor = .ok ((), t₁.cursor) := sysWrite_cursor hfirst
  have hcur₂ := sysWrite_cursor hsecond
  rw [hcursor] at hcur₂
  obtain ⟨hc, hx, hwrap, hsp, hbottom⟩ := chunk_after_nothing hadvance hcur₂ (sysWrite_cursor hone)
  have hb : b.head? = some backspace := by
    cases b with
    | nil => exact absurd hc (by decide)
    | cons y ys => exact congrArg some hc
  -- The first call has drawn nothing, so that the two backspaces see one picture.
  obtain ⟨g, hback, hpitch, hiff⟩ := sameInChunks_nil (f := f) (b := b) (advance_wraps hwrap)
  obtain ⟨n, t, m, u, htwo, hone, -, hpicture⟩ := hiff.mp h
  obtain ⟨hends₂, hrub₂⟩ := sysWrite_back_ok hb htwo
  obtain ⟨hends₁, hrub₁⟩ := sysWrite_back_ok hb hone
  have hpic : rubbed g 0 (s.cursor.baseY + 16) = rubbed s.gfx 0 (s.cursor.baseY + 16) :=
    rubbed_congr hback hpitch ..
  refine ⟨rfl, hb, (sysWrite_ok hone).1, hx, hwrap, hsp, hbottom, ⟨hends₁, hends₂⟩, ?_⟩
  exact hrub₁.symm.trans (hpicture.symm.trans (hrub₂.trans hpic))

theorem same_of_lastColumn (h : LastColumn s a b) : SameInChunks f s a b := by
  obtain ⟨rfl, hb, hfits, hx, hwrap, hsp, hbottom, ⟨hends₁, hends₂⟩, hpicture⟩ := h
  obtain ⟨g, hback, hpitch, hiff⟩ := sameInChunks_nil (f := f) (b := b) (advance_wraps hwrap)
  apply hiff.mpr
  have htop : s.cursor.top = 0 := (top_eq_iff.mpr hsp).trans hsp
  have hgo₂ := goBack_start (k := { s.cursor with baseX := 0, baseY := s.cursor.baseY + 16 }) rfl
    (by change s.cursor.top < _; rw [htop]; decide)
  obtain ⟨g₂, hrun₂, hrub₂⟩ := sysWrite_back (f := f)
    (s := ⟨{ s.cursor with baseX := 0, baseY := s.cursor.baseY + 16 }, g⟩) hfits hb hends₂ hgo₂
  obtain ⟨g₁, hrun₁, hrub₁⟩ := sysWrite_back (f := f) hfits hb hends₁ (goBack_inside hx)
  refine ⟨_, _, _, _, hrun₂, hrun₁, ?_, ?_⟩
  · have hx' : (s.cursor.lineStack s.cursor.top.toNat).prevLineX = s.cursor.baseX - 8 := by
      rw [htop]
      exact hbottom
    have hy : s.cursor.baseY + 16 - 16 = s.cursor.baseY := add_sub_cancel_right ..
    change (Cursor.mk (s.cursor.lineStack s.cursor.top.toNat).prevLineX
      (s.cursor.baseY + 16 - 16) s.cursor.top s.cursor.lineStack) = _
    rw [hx', hy, htop, ← hsp]
  · have hpic : rubbed g 0 (s.cursor.baseY + 16) = rubbed s.gfx 0 (s.cursor.baseY + 16) :=
      rubbed_congr hback hpitch ..
    exact hrub₂.trans (hpic.trans (hpicture.symm.trans hrub₁.symm))

/-- Two calls do what one call does in the last column only. -/
theorem same_in_chunks_iff : SameInChunks f s a b ↔ LastColumn s a b := by
  constructor
  · intro h
    by_cases ha : a = []
    · subst ha
      exact lastColumn_of_same h
    · exact absurd h (not_sameInChunks ha)
  · exact same_of_lastColumn

/-- A console of 1024 by 768 pixels at the boot. -/
def fresh : State where
  cursor := boot fun _ => ⟨0, 0⟩
  gfx :=
    { width := 1024
      height := 768
      pitch := 1024
      size := 786432
      buffer := fun _ => 0
      backbuffer := fun _ => 0
      clips := none
      clipsSize := 0 }

def blankFont : Font := ⟨fun _ => 0, FSK_RED⟩

/-- The letters `ab` in one call take one column, in two calls two. More than 1024 bytes overrun the
staging buffer. -/
theorem two_letters : ¬ SameInChunks blankFont fresh [0x61] [0x62] ∧
    ∀ n t, sysWrite blankFont (List.replicate 1025 0x61) fresh ≠ .ok (n, t) := by
  constructor
  · exact not_sameInChunks (List.cons_ne_nil _ _)
  · intro n t h
    have hfits := (sysWrite_ok h).1
    rw [List.length_replicate] at hfits
    exact absurd hfits (by decide)

end Frog.Console
