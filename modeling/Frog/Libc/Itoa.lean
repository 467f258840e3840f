import Frog.Lib.Prog

/-!
# Numbers as text

`itoa` of `core/lib/oslib.c`. It writes the digits into a buffer of its own, last one first, and
copies them; there is no terminating zero.
-/

namespace Frog.Libc

set_option autoImplicit false
open Bytes Prog

/-- `outside` is an access outside of a buffer for a number, `null` the use of a null pointer, `args`
an argument that is missing or of another type. -/
inductive Fault where
  | outside | null | args
  deriving DecidableEq

def chr (c : Char) : Byte := BitVec.ofNat 8 c.toNat

def digitChar (i : Nat) : Byte :=
  if i < 10 then BitVec.ofNat 8 (i + 48) else BitVec.ofNat 8 (i + 97 - 10)

/-- The first loop, with `room` characters left in `tmp`; the newest comes first. -/
def itoaDigits {σ : Type} (radix : Nat) : Nat → Nat → List Byte → Prog Fault σ (List Byte)
  | 0, v, tmp => do
    check (v = 0 ∧ tmp ≠ []) .outside
    pure tmp
  | room + 1, v, tmp =>
    if v ≠ 0 ∨ tmp = [] then itoaDigits radix room (v / radix) (digitChar (v % radix) :: tmp)
    else pure tmp

/-- The characters that are written to `sp`. -/
def itoa {σ : Type} (value : BitVec 32) (radix : Nat) : Prog Fault σ (List Byte) :=
  if radix = 10 ∧ value.slt 0 = true then do
    let digits ← itoaDigits radix 16 (-value).toNat []
    pure (chr '-' :: digits)
  else itoaDigits radix 16 value.toNat []

/-! ## The text -/

def numeral (radix v : Nat) : List Byte :=
  if v = 0 then [digitChar 0] else (Nat.digits radix v).reverse.map digitChar

def numberText (value : BitVec 32) (radix : Nat) : List Byte :=
  if radix = 10 ∧ value.slt 0 = true then chr '-' :: numeral radix (-value).toNat
  else numeral radix value.toNat

section
variable {σ : Type} {radix room v k : Nat} {tmp : List Byte} {s : σ}

theorem itoaDigits_eq (hr : 1 < radix) (hd : (Nat.digits radix v).length ≤ room)
    (hne : v ≠ 0 ∨ tmp ≠ []) :
    itoaDigits radix room v tmp s =
      .ok ((Nat.digits radix v).reverse.map digitChar ++ tmp, s) := by
  induction room generalizing v tmp with
  | zero =>
    have hnil : Nat.digits radix v = [] := List.eq_nil_of_length_eq_zero (Nat.le_zero.mp hd)
    have hv : v = 0 := Nat.digits_eq_nil_iff_eq_zero.mp hnil
    rw [itoaDigits, check_bind ⟨hv, hne.resolve_left (not_not.mpr hv)⟩, hnil]
    rfl
  | succ room ih =>
    rw [itoaDigits]
    by_cases hv : v = 0
    · rw [if_neg (not_or.mpr ⟨not_not.mpr hv, hne.resolve_left (not_not.mpr hv)⟩), hv,
        Nat.digits_zero]
      rfl
    · have hcons := Nat.digits_eq_cons_digits_div hr hv
      rw [if_pos (.inl hv), ih _ (.inr (List.cons_ne_nil _ _)), hcons]
      · simp
      · rw [hcons] at hd
        exact Nat.le_of_succ_le_succ hd

/-- The loop writes at least one digit. -/
theorem itoaDigits_numeral (hr : 1 < radix) (hd : (Nat.digits radix v).length ≤ room)
    (hroom : 0 < room) : itoaDigits radix room v [] s = .ok (numeral radix v, s) := by
  by_cases hv : v = 0
  · subst hv
    obtain ⟨room, rfl⟩ := Nat.exists_eq_succ_of_ne_zero (Nat.ne_of_gt hroom)
    have hz : (Nat.digits radix 0).length ≤ room := by
      rw [Nat.digits_zero]
      exact Nat.zero_le _
    rw [itoaDigits, if_pos (.inr rfl), Nat.zero_mod, Nat.zero_div,
      itoaDigits_eq hr hz (.inr (List.cons_ne_nil _ _)), Nat.digits_zero]
    rfl
  · rw [itoaDigits_eq hr hd (.inl hv), numeral, if_neg hv, List.append_nil]

/-- Sixteen digits are enough for 32 bits. -/
theorem itoa_eq (hr : radix = 10 ∨ radix = 16) (value : BitVec 32) :
    itoa value radix s = .ok (numberText value radix, s) := by
  have hone : 1 < radix := by rcases hr with rfl | rfl <;> decide
  have hlen : ∀ x : BitVec 32, (Nat.digits radix x.toNat).length ≤ 16 := by
    intro x
    rw [Nat.digits_length_le_iff hone]
    refine Nat.lt_of_lt_of_le x.isLt ?_
    rcases hr with rfl | rfl <;> norm_num
  unfold itoa numberText
  split
  · rw [bind_ok (itoaDigits_numeral hone (hlen _) (by decide))]
    rfl
  · exact itoaDigits_numeral hone (hlen _) (by decide)

theorem numeral_length_le (hr : 1 < radix) (hk : 0 < k) :
    (numeral radix v).length ≤ k ↔ v < radix ^ k := by
  unfold numeral
  split
  · next hv =>
    rw [hv]
    exact iff_of_true hk (Nat.pow_pos (Nat.zero_lt_of_lt hr))
  · rw [List.length_map, List.length_reverse, Nat.digits_length_le_iff hr]

theorem digitChar_ne_zero {i : Nat} (hi : i < 16) : digitChar i ≠ 0 := by
  revert i
  decide

theorem numeral_ne_zero (hr : 1 < radix) (h16 : radix ≤ 16) : ∀ c ∈ numeral radix v, c ≠ 0 := by
  intro c hc
  unfold numeral at hc
  split at hc
  · rw [List.mem_singleton.mp hc]
    decide
  · obtain ⟨i, hi, rfl⟩ := List.mem_map.mp hc
    exact digitChar_ne_zero (Nat.lt_of_lt_of_le (Nat.digits_lt_base hr (List.mem_reverse.mp hi)) h16)

theorem numberText_ne_zero (hr : 1 < radix) (h16 : radix ≤ 16) (value : BitVec 32) :
    ∀ c ∈ numberText value radix, c ≠ 0 := by
  intro c hc
  unfold numberText at hc
  split at hc
  · rcases List.mem_cons.mp hc with rfl | hc
    · decide
    · exact numeral_ne_zero hr h16 c hc
  · exact numeral_ne_zero hr h16 c hc

/-- A number in hexadecimal has at most eight digits. -/
theorem hexText_length (value : BitVec 32) : (numberText value 16).length ≤ 8 := by
  rw [numberText, if_neg (fun h => absurd h.1 (by decide)), numeral_length_le (by decide) (by decide)]
  exact Nat.lt_of_lt_of_le value.isLt (by decide)

theorem slt_zero_iff {value : BitVec 32} : value.slt 0 = true ↔ value.toInt < 0 := by
  rw [BitVec.slt_iff_toInt_lt]
  rfl

/-- The most negative number included. -/
theorem neg_toNat {value : BitVec 32} (h : value.toInt < 0) :
    ((-value).toNat : Int) = -value.toInt := by
  rw [BitVec.toInt_eq_toNat_cond] at h ⊢
  rw [BitVec.toNat_neg]
  split at h <;> omega

theorem toNat_of_nonneg {value : BitVec 32} (h : ¬ value.toInt < 0) :
    (value.toNat : Int) = value.toInt := by
  rw [BitVec.toInt_eq_toNat_cond] at h ⊢
  split at h <;> omega

/-- Nine characters hold the numbers of at most nine digits, or of eight behind a sign. -/
theorem decText_length (value : BitVec 32) :
    (numberText value 10).length ≤ 9 ↔ -100000000 < value.toInt ∧ value.toInt < 1000000000 := by
  unfold numberText
  split
  · next h =>
    have hlt := slt_zero_iff.mp h.2
    have hval := neg_toNat hlt
    rw [List.length_cons, Nat.succ_le_succ_iff, numeral_length_le (by decide) (by decide)]
    omega
  · next h =>
    have hge : ¬ value.toInt < 0 := fun hlt => h ⟨rfl, slt_zero_iff.mpr hlt⟩
    have hval := toNat_of_nonneg hge
    rw [numeral_length_le (by decide) (by decide)]
    omega

end

end Frog.Libc
