import Frog.Lib.Bytes

/-!
# Bitmaps

`core/lib/bitmap.c`. Bit `i` of a map is bit `i % 8` of byte `i / 8`; the bytes past
`mapBytesLength` belong to whatever memory follows the map.
-/

namespace Frog

set_option autoImplicit false
open Bytes

structure Bitmap where
  bits : Store
  mapBytesLength : Nat

namespace Bitmap

/-- `get_value_bitmap`, as the test of its result against zero. -/
def getValue (b : Bitmap) (pos : Nat) : Bool := (b.bits (pos / 8)).getLsbD (pos % 8)

/-- The store of `set_value_bitmap`, whose assertions the caller checks. -/
def setValue (b : Bitmap) (pos : Nat) (value : Bool) : Bitmap :=
  { b with bits := fun i =>
      if i = pos / 8 then
        if value then b.bits i ||| (1#8 <<< (pos % 8)) else b.bits i &&& ~~~(1#8 <<< (pos % 8))
      else b.bits i }

/-- Whole bytes `0xff` are passed over first. -/
def passCount (b : Bitmap) : Nat :=
  ((List.range b.mapBytesLength).find? fun i => b.bits i != 0xff#8).getD b.mapBytesLength

/-- The first clear bit of a byte that is not `0xff`. -/
def clearBit (byte : Byte) : Nat :=
  ((List.range 8).find? fun k => !byte.getLsbD k).getD 8

/-- The second loop of `find_block_bitmap`: extend or restart the run of clear bits. -/
def findRun (b : Bitmap) (cnt : Nat) : Nat → Nat → Nat → Option Nat
  | 0, _, _ => none
  | otherBits + 1, nextBit, count =>
    if b.mapBytesLength * 8 ≤ nextBit then none
    else
      let count' := if b.getValue nextBit then 0 else count + 1
      if count' = cnt then some (nextBit + 1 - cnt)
      else findRun b cnt otherBits (nextBit + 1) count'

/-- `find_block_bitmap`; `none` is its `-1`. -/
def findBlock (b : Bitmap) (cnt : Nat) : Option Nat :=
  if cnt = 0 then none
  else if b.passCount = b.mapBytesLength then none
  else
    let start := 8 * b.passCount + clearBit (b.bits b.passCount)
    if cnt = 1 then some start
    else if b.mapBytesLength * 8 ≤ start + 1 then none
    else b.findRun cnt (b.mapBytesLength * 8 - start) (start + 1) 1

@[simp] theorem setValue_length (b : Bitmap) (pos : Nat) (v : Bool) :
    (b.setValue pos v).mapBytesLength = b.mapBytesLength := rfl

/-- A bit other than `k` survives both masks of `k`. -/
theorem mask_getLsbD_ne {x : Byte} {i k : Nat} (h : i ≠ k) (v : Bool) :
    (if v then x ||| (1#8 <<< k) else x &&& ~~~(1#8 <<< k)).getLsbD i = x.getLsbD i := by
  by_cases hi : i < 8
  · have hz : (1#8 <<< k).getLsbD i = false := by
      by_cases hl : i < k
      · simp [hl]
      · simp [show i - k ≠ 0 by omega]
    cases v <;> simp only [Bool.false_eq_true, if_false, if_true, BitVec.getLsbD_or,
      BitVec.getLsbD_and, BitVec.getLsbD_not, hz, hi] <;> simp
  · rw [BitVec.getLsbD_of_ge _ _ (by omega), BitVec.getLsbD_of_ge _ _ (by omega)]

theorem mask_getLsbD_self {x : Byte} {k : Nat} (h : k < 8) (v : Bool) :
    (if v then x ||| (1#8 <<< k) else x &&& ~~~(1#8 <<< k)).getLsbD k = v := by
  cases v <;> simp [h]

theorem getValue_setValue (b : Bitmap) (pos i : Nat) (v : Bool) :
    (b.setValue pos v).getValue i = if i = pos then v else b.getValue i := by
  unfold getValue setValue
  by_cases hb : i / 8 = pos / 8
  · simp only [hb, if_true]
    by_cases he : i = pos
    · subst i
      rw [mask_getLsbD_self (Nat.mod_lt _ (by norm_num)), if_pos rfl]
    · rw [mask_getLsbD_ne (by omega), if_neg he]
  · have hne : i ≠ pos := fun he => hb (by rw [he])
    simp only [hb, hne, if_false]

@[simp] theorem getValue_setValue_self (b : Bitmap) (pos : Nat) (v : Bool) :
    (b.setValue pos v).getValue pos = v := by
  rw [getValue_setValue, if_pos rfl]

theorem getValue_setValue_ne {b : Bitmap} {pos i : Nat} {v : Bool} (h : i ≠ pos) :
    (b.setValue pos v).getValue i = b.getValue i := by
  rw [getValue_setValue, if_neg h]

theorem ext_getValue {b b' : Bitmap} (hl : b'.mapBytesLength = b.mapBytesLength)
    (h : ∀ i, b'.getValue i = b.getValue i) : b' = b := by
  have hbits : b'.bits = b.bits := by
    funext i
    refine BitVec.eq_of_getLsbD_eq fun k hk => ?_
    have := h (8 * i + k)
    unfold getValue at this
    rwa [show (8 * i + k) / 8 = i by omega, show (8 * i + k) % 8 = k by omega] at this
  cases b
  cases b'
  simp only at hl hbits
  rw [hl, hbits]

/-- A bit that was clear is set and cleared again. -/
theorem setValue_undo {b : Bitmap} {i : Nat} (h : b.getValue i = false) :
    (b.setValue i true).setValue i false = b := by
  refine ext_getValue rfl fun j => ?_
  rw [getValue_setValue, getValue_setValue]
  by_cases hj : j = i
  · rw [if_pos hj, hj, h]
  · rw [if_neg hj, if_neg hj]

/-- A byte other than `0xff` has a clear bit, and `clearBit` is the first. -/
theorem clearBit_spec {byte : Byte} (h : byte ≠ 0xff#8) :
    clearBit byte < 8 ∧ byte.getLsbD (clearBit byte) = false ∧
      ∀ k, k < clearBit byte → byte.getLsbD k = true := by
  unfold clearBit
  cases hf : (List.range 8).find? fun k => !byte.getLsbD k with
  | none =>
    rw [List.find?_range_eq_none] at hf
    refine absurd (BitVec.eq_of_getLsbD_eq fun i hi => ?_) h
    have := hf i hi
    have hff : ∀ k, k < 8 → (0xff#8).getLsbD k = true := by decide
    rw [hff i hi]
    simpa using this
  | some k =>
    rw [List.find?_range_eq_some] at hf
    obtain ⟨hk, hlt, hmin⟩ := hf
    refine ⟨by simpa using hlt, by simpa using hk, fun j hj => ?_⟩
    simpa using hmin j hj

theorem ff_getLsbD {k : Nat} (h : k < 8) : (0xff#8).getLsbD k = true := by
  revert k
  decide

theorem passCount_spec {b : Bitmap} (h : b.passCount ≠ b.mapBytesLength) :
    b.passCount < b.mapBytesLength ∧ b.bits b.passCount ≠ 0xff#8 ∧
      ∀ j, j < b.passCount → b.bits j = 0xff#8 := by
  unfold passCount at h ⊢
  cases hf : (List.range b.mapBytesLength).find? fun i => b.bits i != 0xff#8 with
  | none => simp [hf] at h
  | some p =>
    rw [List.find?_range_eq_some] at hf
    obtain ⟨hne, hm, hmin⟩ := hf
    refine ⟨by simpa using hm, by simpa using hne, fun j hj => ?_⟩
    simpa using hmin j hj

/-- Where the search starts. -/
theorem start_clear {b : Bitmap} {i : Nat} (h : b.passCount ≠ b.mapBytesLength)
    (hi : i = 8 * b.passCount + clearBit (b.bits b.passCount)) :
    i < b.mapBytesLength * 8 ∧ b.getValue i = false := by
  obtain ⟨hp, hne, -⟩ := passCount_spec h
  obtain ⟨hc, hclear, -⟩ := clearBit_spec hne
  have hd : i / 8 = b.passCount := by omega
  have hm : i % 8 = clearBit (b.bits b.passCount) := by omega
  refine ⟨by omega, ?_⟩
  rw [getValue, hd, hm, hclear]

/-- The search for one bit returns the first clear bit of the map. -/
theorem findBlock_one {b : Bitmap} {i : Nat} (h : b.findBlock 1 = some i) :
    i < b.mapBytesLength * 8 ∧ b.getValue i = false ∧ ∀ j, j < i → b.getValue j = true := by
  simp only [findBlock, Nat.one_ne_zero, if_false] at h
  split at h
  · cases h
  · rename_i hp
    simp only [if_true, Option.some.injEq] at h
    obtain ⟨hp', hne, hff⟩ := passCount_spec hp
    obtain ⟨hc, -, hset⟩ := clearBit_spec hne
    obtain ⟨hlt, hclear⟩ := start_clear hp h.symm
    refine ⟨hlt, hclear, fun j hj => ?_⟩
    unfold getValue
    by_cases hj8 : j / 8 < b.passCount
    · rw [hff _ hj8, ff_getLsbD (Nat.mod_lt _ (by norm_num))]
    · have hd : j / 8 = b.passCount := by omega
      rw [hd]
      exact hset _ (by omega)

/-- The run that the second loop finds; it starts behind `count` clear bits. -/
theorem findRun_clear {b : Bitmap} {cnt : Nat} (hcnt : 0 < cnt) {n next count pos : Nat}
    (hle : count ≤ next) (hc : ∀ i, next ≤ i + count → i < next → b.getValue i = false)
    (h : b.findRun cnt n next count = some pos) :
    pos + cnt ≤ b.mapBytesLength * 8 ∧
      ∀ i, pos ≤ i → i < pos + cnt → b.getValue i = false := by
  induction n generalizing next count with
  | zero => cases h
  | succ n ih =>
    unfold findRun at h
    split at h
    · cases h
    rename_i hlt
    by_cases hv : b.getValue next = true
    · rw [if_pos hv, if_neg hcnt.ne] at h
      exact ih (Nat.zero_le _) (fun i hi hi' => by omega) h
    · rw [if_neg hv] at h
      have hc' : ∀ i, next + 1 ≤ i + (count + 1) → i < next + 1 → b.getValue i = false := by
        intro i hi hi'
        by_cases he : i = next
        · exact he ▸ Bool.eq_false_iff.mpr hv
        · exact hc i (by omega) (by omega)
      by_cases hfull : count + 1 = cnt
      · rw [if_pos hfull] at h
        cases h
        exact ⟨by omega, fun i hi hi' => hc' i (by omega) (by omega)⟩
      · rw [if_neg hfull] at h
        exact ih (by omega) hc' h

/-- The search for several bits returns a run of clear bits. -/
theorem findBlock_clear {b : Bitmap} {cnt pos : Nat} (h : b.findBlock cnt = some pos) :
    pos + cnt ≤ b.mapBytesLength * 8 ∧
      ∀ i, pos ≤ i → i < pos + cnt → b.getValue i = false := by
  unfold findBlock at h
  by_cases h0 : cnt = 0
  · rw [if_pos h0] at h
    cases h
  rw [if_neg h0] at h
  by_cases hp : b.passCount = b.mapBytesLength
  · rw [if_pos hp] at h
    cases h
  rw [if_neg hp] at h
  obtain ⟨hlt, hclear⟩ := start_clear hp rfl
  have hone : ∀ i, i = 8 * b.passCount + clearBit (b.bits b.passCount) → b.getValue i = false :=
    fun i hi => hi ▸ hclear
  by_cases h1 : cnt = 1
  · rw [if_pos h1] at h
    cases h
    exact ⟨by omega, fun i hi hi' => hone i (by omega)⟩
  rw [if_neg h1] at h
  split at h
  · cases h
  · exact findRun_clear (by omega) (by omega) (fun i hi hi' => hone i (by omega)) h

/-- The first byte has a clear bit. -/
theorem passCount_first {b : Bitmap} (hl : 0 < b.mapBytesLength) (h : b.bits 0 ≠ 0xff#8) :
    b.passCount = 0 := by
  have hfind : ((List.range b.mapBytesLength).find? fun i => b.bits i != 0xff#8) = some 0 := by
    rw [List.find?_range_eq_some]
    exact ⟨by simpa using h, List.mem_range.mpr hl, fun j hj => absurd hj (Nat.not_lt_zero j)⟩
  rw [passCount, hfind, Option.getD_some]

theorem findBlock_first {b : Bitmap} (hl : 0 < b.mapBytesLength) (h : b.bits 0 ≠ 0xff#8) :
    b.findBlock 1 = some (clearBit (b.bits 0)) := by
  have hp := passCount_first hl h
  rw [findBlock, if_neg Nat.one_ne_zero, hp, if_neg hl.ne, if_pos rfl, Nat.mul_zero, Nat.zero_add]

/-- The search for one bit fails only on a full map. -/
theorem findBlock_one_none {b : Bitmap} (h : b.findBlock 1 = none) {i : Nat}
    (hi : i < b.mapBytesLength * 8) : b.getValue i = true := by
  simp only [findBlock, Nat.one_ne_zero, if_false] at h
  split at h
  · rename_i hp
    unfold passCount at hp
    cases hf : (List.range b.mapBytesLength).find? fun i => b.bits i != 0xff#8 with
    | none =>
      rw [List.find?_range_eq_none] at hf
      have := hf (i / 8) (by omega)
      simp only [Bool.not_eq_eq_eq_not, Bool.not_true, bne_eq_false_iff_eq] at this
      rw [getValue, this, ff_getLsbD (Nat.mod_lt _ (by norm_num))]
    | some p =>
      rw [hf, Option.getD_some] at hp
      rw [List.find?_range_eq_some] at hf
      have := List.mem_range.mp hf.2.1
      omega
  · simp at h

/-- The bits of a list are set or cleared one after the other. -/
def setAll (b : Bitmap) (v : Bool) (is : List Nat) : Bitmap :=
  is.foldl (fun b i => b.setValue i v) b

theorem setAll_cons (b : Bitmap) (v : Bool) (i : Nat) (is : List Nat) :
    b.setAll v (i :: is) = (b.setValue i v).setAll v is := rfl

@[simp] theorem setAll_length (b : Bitmap) (v : Bool) (is : List Nat) :
    (b.setAll v is).mapBytesLength = b.mapBytesLength := by
  induction is generalizing b with
  | nil => rfl
  | cons i is ih => rw [setAll_cons, ih, setValue_length]

theorem getValue_setAll (b : Bitmap) (v : Bool) (is : List Nat) (j : Nat) :
    (b.setAll v is).getValue j = if j ∈ is then v else b.getValue j := by
  induction is generalizing b with
  | nil => rfl
  | cons i is ih =>
    rw [setAll_cons, ih, getValue_setValue]
    by_cases hj : j ∈ is
    · rw [if_pos hj, if_pos (List.mem_cons_of_mem i hj)]
    · rw [if_neg hj]
      by_cases he : j = i
      · rw [if_pos he, if_pos (he ▸ List.mem_cons_self)]
      · rw [if_neg he, if_neg fun h => (List.mem_cons.mp h).elim he hj]

theorem setAll_undo {b : Bitmap} {is : List Nat} (h : ∀ i ∈ is, b.getValue i = false) :
    (b.setAll true is).setAll false is = b := by
  apply ext_getValue
  · rw [setAll_length, setAll_length]
  · intro j
    rw [getValue_setAll, getValue_setAll]
    by_cases hj : j ∈ is
    · rw [if_pos hj, h j hj]
    · rw [if_neg hj, if_neg hj]

/-- The clear bits that `n` allocations in a row take. -/
def firstClear (b : Bitmap) : Nat → Option (List Nat)
  | 0 => some []
  | n + 1 =>
    match b.findBlock 1 with
    | none => none
    | some i => (firstClear (b.setValue i true) n).map (i :: ·)

theorem firstClear_succ {b : Bitmap} {i n : Nat} (h : b.findBlock 1 = some i) :
    b.firstClear (n + 1) = ((b.setValue i true).firstClear n).map (i :: ·) := by
  rw [firstClear, h]

theorem firstClear_succ_eq_some {b : Bitmap} {n : Nat} {is : List Nat} :
    b.firstClear (n + 1) = some is ↔
      ∃ i rest, b.findBlock 1 = some i ∧ (b.setValue i true).firstClear n = some rest ∧
        is = i :: rest := by
  rw [firstClear]
  cases b.findBlock 1 with
  | none => simp
  | some i => simp [eq_comm]

theorem firstClear_spec {b : Bitmap} {n : Nat} {is : List Nat} (h : b.firstClear n = some is) :
    is.length = n ∧ ∀ i ∈ is, i < b.mapBytesLength * 8 ∧ b.getValue i = false := by
  induction n generalizing b is with
  | zero =>
    cases h
    exact ⟨rfl, fun i hi => absurd hi List.not_mem_nil⟩
  | succ n ih =>
    obtain ⟨i, rest, hf, hrest, rfl⟩ := Iff.mp firstClear_succ_eq_some h
    obtain ⟨hlen, hall⟩ := ih hrest
    obtain ⟨hlt, hclear, -⟩ := findBlock_one hf
    refine ⟨congrArg (· + 1) hlen, fun j hj => ?_⟩
    rcases List.mem_cons.mp hj with rfl | hj
    · exact ⟨hlt, hclear⟩
    · obtain ⟨hjlt, hjclear⟩ := hall j hj
      rw [getValue_setValue] at hjclear
      by_cases he : j = i
      · rw [if_pos he] at hjclear
        cases hjclear
      · rw [if_neg he] at hjclear
        exact ⟨hjlt, hjclear⟩

end Bitmap

end Frog
