import Frog.Bitmap
import Mathlib.Order.Bounds.Basic

/-!
# First fit

`find_block_bitmap` in the arithmetic of 32 bits, and the loop with which its callers set what it
found. In a map of `2 ^ 29` bytes the number of the bits does not fit.
-/

namespace Frog.Bitmap

set_option autoImplicit false

/-- The bits from `i` on lie in the map and are clear, `cnt` of them. -/
def ClearRun (b : Bitmap) (cnt i : Nat) : Prop :=
  i + cnt ≤ b.mapBytesLength * 8 ∧ ∀ j, i ≤ j → j < i + cnt → b.getValue j = false

/-- The first place for `cnt` bits, or that there is none. -/
def FirstFit (b : Bitmap) (cnt : Nat) : Option Nat → Prop
  | some i => IsLeast {i | b.ClearRun cnt i} i
  | none => ∀ i, ¬ b.ClearRun cnt i

variable {b : Bitmap} {cnt n next count i : Nat}

/-! ## The search -/

theorem ClearRun.next_lt (h : b.ClearRun cnt i) (hv : b.getValue next = true)
    (hn : next < i + cnt) : next < i := by
  apply Nat.lt_of_not_le
  intro hle
  have hclear := h.2 next hle hn
  rw [hv] at hclear
  cases hclear

/-- The second loop, behind `count` clear bits with no place before them. -/
theorem findRun_first (hn : b.mapBytesLength * 8 ≤ next + n) (hcount : count < cnt)
    (hle : count ≤ next) (hc : ∀ i, next ≤ i + count → i < next → b.getValue i = false)
    (hfirst : ∀ i, b.ClearRun cnt i → next ≤ i + count) :
    b.FirstFit cnt (b.findRun cnt n next count) := by
  have hend : b.mapBytesLength * 8 ≤ next → b.FirstFit cnt none := by
    intro h i hi
    have hlo := hfirst i hi
    have hhi := hi.1
    omega
  induction n generalizing next count with
  | zero => exact hend (by omega)
  | succ n ih =>
    unfold findRun
    by_cases hlt : b.mapBytesLength * 8 ≤ next
    · rw [if_pos hlt]
      exact hend hlt
    · rw [if_neg hlt]
      by_cases hv : b.getValue next = true
      · -- no place reaches over a set bit
        rw [if_pos hv, if_neg (by omega)]
        have hfirst' : ∀ i, b.ClearRun cnt i → next + 1 ≤ i + 0 := by
          intro i hi
          exact hi.next_lt hv (Nat.lt_of_le_of_lt (hfirst i hi) (by omega))
        apply ih (by omega) (by omega) (Nat.zero_le _) (fun i hi hi' => by omega) hfirst'
        intro h i hi
        have hlo := hfirst' i hi
        have hhi := hi.1
        omega
      · rw [if_neg hv]
        have hc' : ∀ i, next + 1 ≤ i + (count + 1) → i < next + 1 → b.getValue i = false := by
          intro i hi hi'
          by_cases he : i = next
          · exact he ▸ Bool.eq_false_iff.mpr hv
          · exact hc i (by omega) (by omega)
        have hfirst' : ∀ i, b.ClearRun cnt i → next + 1 ≤ i + (count + 1) := by
          intro i hi
          have hlo := hfirst i hi
          omega
        by_cases hfull : count + 1 = cnt
        · rw [if_pos hfull]
          constructor
          · exact ⟨by omega, fun j hj hj' => hc' j (by omega) (by omega)⟩
          · intro i hi
            have hlo := hfirst' i hi
            omega
        · rw [if_neg hfull]
          apply ih (by omega) (by omega) (by omega) hc' hfirst'
          intro h i hi
          have hlo := hfirst' i hi
          have hhi := hi.1
          omega

/-- All bits in front of where the search starts are set. -/
theorem start_first (hp : b.passCount ≠ b.mapBytesLength) {j : Nat}
    (hj : j < 8 * b.passCount + clearBit (b.bits b.passCount)) : b.getValue j = true := by
  have hone : b.findBlock 1 = some (8 * b.passCount + clearBit (b.bits b.passCount)) := by
    unfold findBlock
    rw [if_neg Nat.one_ne_zero, if_neg hp, if_pos rfl]
  exact (findBlock_one hone).2.2 j hj

theorem findBlock_firstFit (hcnt : cnt ≠ 0) : b.FirstFit cnt (b.findBlock cnt) := by
  have hset : ∀ i, b.ClearRun cnt i → b.getValue i = false := fun i hi =>
    hi.2 i (Nat.le_refl i) (by omega)
  unfold findBlock
  rw [if_neg hcnt]
  by_cases hp : b.passCount = b.mapBytesLength
  · rw [if_pos hp]
    have hnone : b.findBlock 1 = none := by
      unfold findBlock
      rw [if_neg Nat.one_ne_zero, if_pos hp]
    intro i hi
    have htrue := findBlock_one_none hnone (i := i) (Nat.lt_of_lt_of_le (by omega) hi.1)
    rw [hset i hi] at htrue
    cases htrue
  · rw [if_neg hp]
    obtain ⟨hlt, hclear⟩ := start_clear hp rfl
    have hstart : ∀ i, b.ClearRun cnt i →
        8 * b.passCount + clearBit (b.bits b.passCount) ≤ i := by
      intro i hi
      apply Nat.le_of_not_lt
      intro hlt'
      have htrue := start_first hp hlt'
      rw [hset i hi] at htrue
      cases htrue
    generalize 8 * b.passCount + clearBit (b.bits b.passCount) = start at *
    by_cases h1 : cnt = 1
    · rw [if_pos h1]
      constructor
      · refine ⟨by omega, fun j hj hj' => ?_⟩
        rw [show j = start by omega]
        exact hclear
      · exact hstart
    · rw [if_neg h1]
      by_cases hend : b.mapBytesLength * 8 ≤ start + 1
      · rw [if_pos hend]
        intro i hi
        have hlo := hstart i hi
        have hhi := hi.1
        omega
      · rw [if_neg hend]
        apply findRun_first (by omega) (by omega) (by omega)
        · intro i hi hi'
          rw [show i = start by omega]
          exact hclear
        · intro i hi
          have hlo := hstart i hi
          omega

/-! ## 32 bits -/

/-- The loop of `find_block_bitmap` for at most so many passes. -/
def findRunWord (b : Bitmap) (cnt : BitVec 32) : Nat → BitVec 32 → BitVec 32 → BitVec 32
  | 0, _, _ => -1
  | otherBits + 1, nextBit, count =>
    if BitVec.ofNat 32 b.mapBytesLength * 8 ≤ nextBit then -1
    else
      let count' := if b.getValue nextBit.toNat then 0 else count + 1
      if count' = cnt then nextBit - cnt + 1
      else findRunWord b cnt otherBits (nextBit + 1) count'

def findBlockBitmap (b : Bitmap) (cnt : BitVec 32) : BitVec 32 :=
  if cnt = 0 then -1
  else if b.passCount = b.mapBytesLength then -1
  else
    let startIdx : BitVec 32 :=
      8 * BitVec.ofNat 32 b.passCount + BitVec.ofNat 32 (clearBit (b.bits b.passCount))
    if cnt = 1 then startIdx
    else if BitVec.ofNat 32 b.mapBytesLength * 8 ≤ startIdx + 1 then -1
    else
      let otherBits := BitVec.ofNat 32 b.mapBytesLength * 8 - startIdx
      b.findRunWord cnt otherBits.toNat (startIdx + 1) 1

/-- `set_value_bitmap`, with nothing where an assertion fails. -/
def setValueBitmap (b : Bitmap) (bitPos : BitVec 32) (value : BitVec 8) : Option Bitmap :=
  if BitVec.ofNat 32 b.mapBytesLength * 8 > bitPos ∧ (value = 0 ∨ value = 1) then
    some (b.setValue bitPos.toNat (value != 0))
  else none

/-- The bits from `bitPos` on are set, as the callers do with what they found. -/
def setRun (b : Bitmap) (bitPos : BitVec 32) : Nat → Option Bitmap
  | 0 => some b
  | n + 1 => (b.setRun bitPos n).bind fun b => b.setValueBitmap (bitPos + BitVec.ofNat 32 n) 1

/-- A map whose positions are numbers of 32 bits, with their number. -/
structure Addressed extends Bitmap where
  fits : mapBytesLength * 8 < 2 ^ 32

/-- What the result stands for. -/
def position (w : BitVec 32) : Option Nat := if w = -1 then none else some w.toNat

theorem position_ofNat (h : i < 2 ^ 32 - 1) : position (BitVec.ofNat 32 i) = some i := by
  have hi : (BitVec.ofNat 32 i).toNat = i := by
    rw [BitVec.toNat_ofNat]
    exact Nat.mod_eq_of_lt (by omega)
  unfold position
  rw [if_neg, hi]
  intro he
  have hne := congrArg BitVec.toNat he
  rw [hi] at hne
  change i = 2 ^ 32 - 1 at hne
  omega

section Words
variable {x y : BitVec 32}

theorem length_toNat (hb : b.mapBytesLength * 8 < 2 ^ 32) :
    (BitVec.ofNat 32 b.mapBytesLength * 8).toNat = b.mapBytesLength * 8 := by
  rw [BitVec.toNat_mul, BitVec.toNat_ofNat, Nat.mod_eq_of_lt (a := b.mapBytesLength) (by omega)]
  exact Nat.mod_eq_of_lt hb

theorem succ_toNat (h : x.toNat + 1 < 2 ^ 32) : (x + 1).toNat = x.toNat + 1 := by
  rw [BitVec.toNat_add]
  exact Nat.mod_eq_of_lt h

theorem le_length_iff (hb : b.mapBytesLength * 8 < 2 ^ 32) :
    BitVec.ofNat 32 b.mapBytesLength * 8 ≤ x ↔ b.mapBytesLength * 8 ≤ x.toNat := by
  rw [BitVec.le_def, length_toNat hb]

/-- The loop computes without a wrap. -/
theorem findRunWord_eq (hb : b.mapBytesLength * 8 < 2 ^ 32) (hx : x.toNat ≤ b.mapBytesLength * 8)
    (hy : y.toNat ≤ x.toNat) {c : BitVec 32} (hc : c ≠ 0) :
    position (b.findRunWord c n x y) = b.findRun c.toNat n x.toNat y.toNat := by
  induction n generalizing x y with
  | zero => rfl
  | succ n ih =>
    unfold findRunWord findRun
    simp only [le_length_iff hb]
    by_cases hend : b.mapBytesLength * 8 ≤ x.toNat
    · rw [if_pos hend, if_pos hend]
      rfl
    · rw [if_neg hend, if_neg hend]
      have hx1 : (x + 1).toNat = x.toNat + 1 := succ_toNat (by omega)
      have hcpos : 0 < c.toNat := Nat.pos_of_ne_zero fun h => hc (BitVec.eq_of_toNat_eq h)
      by_cases hv : b.getValue x.toNat = true
      · have h0 : (0 : BitVec 32).toNat = 0 := rfl
        rw [if_pos hv, if_pos hv, if_neg (Ne.symm hc), if_neg hcpos.ne]
        rw [ih (by omega) (by rw [h0]; omega), hx1, h0]
      · rw [if_neg hv, if_neg hv]
        have hy1 : (y + 1).toNat = y.toNat + 1 := succ_toNat (by omega)
        by_cases hfull : y + 1 = c
        · have hcn : y.toNat + 1 = c.toNat := by rw [← hy1, hfull]
          rw [if_pos hfull, if_pos hcn]
          have hpos : x - c + 1 = BitVec.ofNat 32 (x.toNat + 1 - c.toNat) := by
            have h1 : (1 : BitVec 32).toNat = 1 := rfl
            apply BitVec.eq_of_toNat_eq
            rw [BitVec.toNat_add, BitVec.toNat_sub, BitVec.toNat_ofNat, h1]
            omega
          rw [hpos, position_ofNat (by omega)]
        · have hcn : y.toNat + 1 ≠ c.toNat := by
            intro he
            exact hfull (BitVec.eq_of_toNat_eq (hy1.trans he))
          rw [if_neg hfull, if_neg hcn, ih (by omega) (by omega), hx1, hy1]

theorem findBlockBitmap_eq (b : Addressed) (c : BitVec 32) :
    position (b.findBlockBitmap c) = b.findBlock c.toNat := by
  have hb := b.fits
  unfold findBlockBitmap findBlock
  by_cases h0 : c = 0
  · rw [if_pos h0, if_pos (by rw [h0]; rfl)]
    rfl
  · have hpos : c.toNat ≠ 0 := fun h => h0 (BitVec.eq_of_toNat_eq h)
    rw [if_neg h0, if_neg hpos]
    by_cases hp : b.passCount = b.mapBytesLength
    · rw [if_pos hp, if_pos hp]
      rfl
    · rw [if_neg hp, if_neg hp]
      have hlt := (start_clear hp rfl).1
      obtain ⟨hpass, hne, -⟩ := passCount_spec hp
      have hbit := (clearBit_spec hne).1
      have hstart : (8 * BitVec.ofNat 32 b.passCount +
          BitVec.ofNat 32 (clearBit (b.bits b.passCount)) : BitVec 32) =
            BitVec.ofNat 32 (8 * b.passCount + clearBit (b.bits b.passCount)) := by
        rw [BitVec.ofNat_add, BitVec.ofNat_mul]
        rfl
      simp only [hstart]
      generalize 8 * b.passCount + clearBit (b.bits b.passCount) = start at hlt ⊢
      have hs : (BitVec.ofNat 32 start).toNat = start := by
        rw [BitVec.toNat_ofNat]
        exact Nat.mod_eq_of_lt (by omega)
      have hs1 : (BitVec.ofNat 32 start + 1).toNat = start + 1 := by
        rw [succ_toNat (by omega), hs]
      have hone : c = 1 ↔ c.toNat = 1 :=
        ⟨fun h => by rw [h]; rfl, fun h => BitVec.eq_of_toNat_eq h⟩
      simp only [hone, le_length_iff hb, hs1]
      by_cases h1 : c.toNat = 1
      · rw [if_pos h1, if_pos h1]
        exact position_ofNat (by omega)
      · rw [if_neg h1, if_neg h1]
        by_cases hend : b.mapBytesLength * 8 ≤ start + 1
        · rw [if_pos hend, if_pos hend]
          rfl
        · rw [if_neg hend, if_neg hend]
          have hother : (BitVec.ofNat 32 b.mapBytesLength * 8 - BitVec.ofNat 32 start).toNat =
              b.mapBytesLength * 8 - start := by
            rw [BitVec.toNat_sub, length_toNat hb, hs]
            omega
          rw [findRunWord_eq hb (by omega) (by rw [hs1]; exact Nat.succ_pos _) h0, hother, hs1]
          rfl

end Words

/-! ## Setting what was found -/

theorem setValueBitmap_ok (hb : b.mapBytesLength * 8 < 2 ^ 32) (hi : i < b.mapBytesLength * 8) :
    b.setValueBitmap (BitVec.ofNat 32 i) 1 = some (b.setValue i true) := by
  have hin : (BitVec.ofNat 32 i).toNat = i := by
    rw [BitVec.toNat_ofNat]
    exact Nat.mod_eq_of_lt (by omega)
  unfold setValueBitmap
  rw [if_pos, hin]
  · rfl
  · refine ⟨?_, .inr rfl⟩
    rw [gt_iff_lt, BitVec.lt_def, hin, length_toNat hb]
    exact hi

theorem setRun_ok (hb : b.mapBytesLength * 8 < 2 ^ 32) (hi : i + n ≤ b.mapBytesLength * 8) :
    b.setRun (BitVec.ofNat 32 i) n = some (b.setAll true (List.range' i n)) := by
  induction n with
  | zero => rfl
  | succ n ih =>
    unfold setRun
    rw [ih (by omega), Option.bind_some, ← BitVec.ofNat_add, setValueBitmap_ok]
    · rw [List.range'_concat, setAll, setAll, List.foldl_append, Nat.one_mul]
      rfl
    · rwa [setAll_length]
    · rw [setAll_length]
      omega

theorem getValue_setRun (j : Nat) : (b.setAll true (List.range' i n)).getValue j =
    if i ≤ j ∧ j < i + n then true else b.getValue j := by
  rw [getValue_setAll]
  simp only [List.mem_range'_1]

/-- The search returns the first place. Setting its bits changes no others, and nothing that is found
then lies over them. -/
theorem search_first_fit (b : Addressed) (cnt : BitVec 32) (hcnt : cnt ≠ 0) :
    b.FirstFit cnt.toNat (position (b.findBlockBitmap cnt)) ∧
      ∀ i, position (b.findBlockBitmap cnt) = some i →
        ∃ b' : Addressed, b.setRun (b.findBlockBitmap cnt) cnt.toNat = some b'.toBitmap ∧
          b'.mapBytesLength = b.mapBytesLength ∧
          (∀ j, b'.getValue j = if i ≤ j ∧ j < i + cnt.toNat then true else b.getValue j) ∧
          ∀ cnt' i', position (b'.findBlockBitmap cnt') = some i' →
            i' + cnt'.toNat ≤ i ∨ i + cnt.toNat ≤ i' := by
  have hpos : cnt.toNat ≠ 0 := fun h => hcnt (BitVec.eq_of_toNat_eq h)
  constructor
  · rw [findBlockBitmap_eq]
    exact findBlock_firstFit hpos
  · intro i hi
    have hw : b.findBlockBitmap cnt = BitVec.ofNat 32 i := by
      unfold position at hi
      split at hi
      · cases hi
      · rw [← Option.some.inj hi, BitVec.ofNat_toNat, BitVec.setWidth_eq]
    rw [findBlockBitmap_eq] at hi
    obtain ⟨hend, -⟩ := findBlock_clear hi
    have hlen : (b.setAll true (List.range' i cnt.toNat)).mapBytesLength = b.mapBytesLength :=
      setAll_length ..
    refine ⟨⟨b.setAll true (List.range' i cnt.toNat), by rw [hlen]; exact b.fits⟩, ?_, hlen,
      getValue_setRun, ?_⟩
    · rw [hw]
      exact setRun_ok b.fits hend
    · intro cnt' i' hi'
      rw [findBlockBitmap_eq] at hi'
      have hclear := (findBlock_clear hi').2
      have hpos' : cnt'.toNat ≠ 0 := by
        intro h0
        rw [h0, findBlock, if_pos rfl] at hi'
        cases hi'
      apply Classical.byContradiction
      intro hover
      -- a bit of both places would be set and clear
      have hboth := hclear (max i i') (Nat.le_max_right i i') (by omega)
      rw [getValue_setRun, if_pos (by omega)] at hboth
      cases hboth

theorem search_first_fit_three : FirstFit ⟨fun _ => 0x0b, 2⟩ 3 (some 4) := by
  have hfit := (search_first_fit ⟨⟨fun _ => 0x0b, 2⟩, by decide⟩ 3 (by decide)).1
  have hfound : position (findBlockBitmap ⟨fun _ => 0x0b, 2⟩ 3) = some 4 := by decide
  rw [hfound] at hfit
  exact hfit

/-- The number of the bits of a longer map wraps to 0, and no second bit is looked for. -/
theorem long_map_not_searched :
    ¬ FirstFit ⟨fun _ => 0, 2 ^ 29⟩ 2 (position (findBlockBitmap ⟨fun _ => 0, 2 ^ 29⟩ 2)) := by
  have hpass : passCount ⟨fun _ => 0, 2 ^ 29⟩ = 0 := passCount_first (by decide) (by decide)
  have hfound : findBlockBitmap ⟨fun _ => 0, 2 ^ 29⟩ 2 = -1 := by
    unfold findBlockBitmap
    rw [if_neg (by decide), hpass, if_neg (by decide)]
    decide
  rw [hfound]
  intro hfit
  apply hfit 0
  exact ⟨by decide, fun _ _ _ => BitVec.getLsbD_zero⟩

end Frog.Bitmap
