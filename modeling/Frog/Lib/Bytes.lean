import Mathlib

/-!
# Byte stores and little-endian words

A store is a function from addresses to bytes. `patch` overwrites one interval of it; two
patches of disjoint intervals do not see each other. Words are read and written least
significant byte first.
-/

namespace Bytes

set_option autoImplicit false

abbrev Byte := BitVec 8

/-- Memory from some address on; a buffer is read only below its own length. -/
abbrev Store := Nat → Byte

/-- Overwrite the `len` bytes from `off` on with the first `len` bytes of `src`. -/
def patch (b : Store) (off len : Nat) (src : Store) : Store := fun a =>
  if off ≤ a ∧ a < off + len then src (a - off) else b a

theorem patch_in {b src : Store} {off len a : Nat} (h : off ≤ a ∧ a < off + len) :
    patch b off len src a = src (a - off) := if_pos h

theorem patch_out {b src : Store} {off len a : Nat} (h : a < off ∨ off + len ≤ a) :
    patch b off len src a = b a := if_neg (by omega)

@[simp] theorem patch_zero (b src : Store) (off : Nat) : patch b off 0 src = b := by
  funext a
  exact patch_out (by omega)

/-- Only the bytes inside the interval matter. -/
theorem patch_congr {b src src' : Store} {off len : Nat} (h : ∀ i, i < len → src i = src' i) :
    patch b off len src = patch b off len src' := by
  funext a
  unfold patch
  split
  · exact h _ (by omega)
  · rfl

/-- A read-modify-write of a whole interval is a patch of the part that was modified. -/
theorem patch_patch_inner {b src : Store} {off len o n : Nat} (h : o + n ≤ len) :
    patch b off len (patch (fun i => b (off + i)) o n src) = patch b (off + o) n src := by
  funext a
  unfold patch
  by_cases h1 : off ≤ a ∧ a < off + len
  · by_cases h2 : o ≤ a - off ∧ a - off < o + n
    · rw [if_pos h1, if_pos h2, if_pos (by omega)]
      exact congrArg src (by omega)
    · rw [if_pos h1, if_neg h2, if_neg (by omega)]
      exact congrArg b (by omega)
  · rw [if_neg h1, if_neg (by omega)]

/-- Two writes one behind the other are one write. -/
theorem patch_append (b f h : Store) (off n m : Nat) :
    patch (patch b off n f) (off + n) m h =
      patch b off (n + m) fun k => if k < n then f k else h (k - n) := by
  funext a
  unfold patch
  by_cases h1 : off + n ≤ a ∧ a < off + n + m
  · have hn : ¬ a - off < n := by omega
    rw [if_pos h1, if_pos (by omega)]
    simp only [hn, if_false]
    exact congrArg h (by omega)
  · by_cases h2 : off ≤ a ∧ a < off + n
    · have hn : a - off < n := by omega
      rw [if_neg h1, if_pos h2, if_pos (by omega)]
      simp only [hn, if_true]
    · rw [if_neg h1, if_neg h2, if_neg (by omega)]

/-- Byte `k` of the value `v`, least significant first. -/
def leByte (v k : Nat) : Byte := BitVec.ofNat 8 (v / 256 ^ k)

theorem leByte_toNat (v k : Nat) : (leByte v k).toNat = v / 256 ^ k % 256 := by
  simp [leByte]

def le16 (b : Store) (o : Nat) : Nat := (b o).toNat + 256 * (b (o + 1)).toNat

def le32 (b : Store) (o : Nat) : Nat := le16 b o + 65536 * le16 b (o + 2)

theorem le16_lt (b : Store) (o : Nat) : le16 b o < 65536 := by
  have h0 := (b o).isLt
  have h1 := (b (o + 1)).isLt
  unfold le16
  omega

theorem le32_lt (b : Store) (o : Nat) : le32 b o < 2 ^ 32 := by
  have h0 := le16_lt b o
  have h1 := le16_lt b (o + 2)
  unfold le32
  omega

theorem le16_congr {b b' : Store} {o o' : Nat} (h : ∀ i, i < 2 → b (o + i) = b' (o' + i)) :
    le16 b o = le16 b' o' := by
  have h0 := h 0 (by omega)
  have h1 := h 1 (by omega)
  simp only [Nat.add_zero] at h0
  simp only [le16, h0, h1]

theorem le32_congr {b b' : Store} {o o' : Nat} (h : ∀ i, i < 4 → b (o + i) = b' (o' + i)) :
    le32 b o = le32 b' o' := by
  have h0 : le16 b o = le16 b' o' := le16_congr fun i hi => h i (by omega)
  have h2 : le16 b (o + 2) = le16 b' (o' + 2) := by
    refine le16_congr fun i hi => ?_
    have := h (2 + i) (by omega)
    simpa only [Nat.add_assoc] using this
  simp only [le32, h0, h2]

/-- A word written byte by byte reads back modulo its width. -/
theorem le16_of_bytes {b : Store} {o v : Nat} (h : ∀ i, i < 2 → b (o + i) = leByte v i) :
    le16 b o = v % 65536 := by
  have h0 := h 0 (by omega)
  have h1 := h 1 (by omega)
  simp only [Nat.add_zero] at h0
  simp only [le16, h0, h1, leByte_toNat, Nat.pow_zero, Nat.pow_one, Nat.div_one]
  omega

theorem le32_of_bytes {b : Store} {o v : Nat} (h : ∀ i, i < 4 → b (o + i) = leByte v i) :
    le32 b o = v % 2 ^ 32 := by
  have h0 := h 0 (by omega)
  have h1 := h 1 (by omega)
  have h2 := h 2 (by omega)
  have h3 := h 3 (by omega)
  simp only [Nat.add_zero] at h0
  simp only [le32, le16, Nat.add_assoc, h0, h1, h2, h3, leByte_toNat]
  norm_num
  omega

theorem le32_of_bytes_lt {b : Store} {o v : Nat} (hv : v < 2 ^ 32)
    (h : ∀ i, i < 4 → b (o + i) = leByte v i) : le32 b o = v := by
  rw [le32_of_bytes h, Nat.mod_eq_of_lt hv]

@[simp] theorem leByte_zero (k : Nat) : leByte 0 k = 0 := by
  simp [leByte]

theorem le32_zero {b : Store} {o : Nat} (h : ∀ i, i < 4 → b (o + i) = 0) : le32 b o = 0 :=
  le32_of_bytes_lt (by norm_num) fun i hi => by rw [h i hi, leByte_zero]

end Bytes
