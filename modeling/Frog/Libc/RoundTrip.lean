import Frog.Libc.Itoa

/-!
# Numbers and back

`itoa` with its buffer, the memory that it writes to and the length that it returns, and the numerals
that are read back.
-/

namespace Frog.Libc

set_option autoImplicit false
open Bytes Prog

/-! ## The call -/

/-- `tmp` with the memory behind it, how far `tp` and `sp` are, and the memory of the caller. -/
structure Conv where
  tmp : Store
  tp : Nat
  out : Store
  sp : Nat

/-- `*tp++ = c`. -/
def Conv.push (c : Conv) (b : Byte) : Conv :=
  { c with tmp := Function.update c.tmp c.tp b, tp := c.tp + 1 }

/-- `*sp++ = b`. -/
def Conv.emit (c : Conv) (b : Byte) : Conv :=
  { c with out := Function.update c.out c.sp b, sp := c.sp + 1 }

/-- `*sp++ = *--tp`. -/
def Conv.take (c : Conv) : Conv :=
  { c with tp := c.tp - 1 }.emit (c.tmp (c.tp - 1))

/-- The first loop, with `room` bytes of `tmp` left. -/
def fillTmp (radix : Nat) : Nat → Nat → Prog Fault Conv Unit
  | 0, v => do
    let c ← get
    check (v = 0 ∧ c.tp ≠ 0) .outside
  | room + 1, v => do
    let c ← get
    if v ≠ 0 ∨ c.tp = 0 then
      modify fun c => c.push (digitChar (v % radix))
      fillTmp radix room (v / radix)

/-- The second loop, as many times as `tp` is above `tmp`. -/
def drainTmp : Nat → Prog Fault Conv Unit
  | 0 => pure ()
  | n + 1 => do
    modify Conv.take
    drainTmp n

/-- The negation of the most negative number wraps. -/
def itoaCall (value : BitVec 32) (radix : Nat) : Prog Fault Conv Nat := do
  let isSign := decide (radix = 10) && value.slt 0
  modify fun c => { c with tp := 0 }
  fillTmp radix 16 (if isSign then (-value).toNat else value.toNat)
  let c ← get
  let len := c.tp
  if isSign then
    modify fun c => c.emit (chr '-')
    drainTmp len
    pure (len + 1)
  else
    drainTmp len
    pure len

/-! ## What the loops leave in memory -/

/-- The bytes below `tp`, the newest first. -/
def Conv.digits (c : Conv) : List Byte := (List.range c.tp).reverse.map c.tmp

/-- A text as memory. -/
def textAt (text : List Byte) : Store := fun i => text.getD i 0

section Loops
variable {radix room v n : Nat} {text : List Byte} {c d : Conv} {b : Byte}

theorem Conv.push_digits : (c.push b).digits = b :: c.digits := by
  unfold Conv.digits Conv.push
  rw [List.range_succ, List.reverse_append, List.reverse_singleton, List.singleton_append,
    List.map_cons]
  refine congrArg₂ List.cons (Function.update_self ..) (List.map_congr_left fun i hi => ?_)
  have hlt : i < c.tp := List.mem_range.mp (List.mem_reverse.mp hi)
  exact Function.update_of_ne (Nat.ne_of_lt hlt) ..

theorem Conv.digits_eq_nil : c.digits = [] ↔ c.tp = 0 := by
  unfold Conv.digits
  rw [List.map_eq_nil_iff, List.reverse_eq_nil_iff, List.range_eq_nil]

/-- What the first loop does not change. -/
structure Filled (c d : Conv) (top : Nat) : Prop where
  out : d.out = c.out
  sp : d.sp = c.sp
  behind : ∀ i, top ≤ i → d.tmp i = c.tmp i

/-- The digits are those of the list that `itoaDigits` builds. -/
theorem fillTmp_eq {digits : List Byte}
    (h : itoaDigits radix room v c.digits () = .ok (digits, ())) :
    ∃ d, fillTmp radix room v c = .ok ((), d) ∧ d.digits = digits ∧ Filled c d (c.tp + room) := by
  induction room generalizing v c with
  | zero =>
    obtain ⟨_, _, hcheck, hpure⟩ := bind_eq_ok.mp h
    cases hpure
    obtain ⟨hv, hne⟩ := (check_eq_ok.mp hcheck).1
    refine ⟨c, ?_, rfl, ⟨rfl, rfl, fun _ _ => rfl⟩⟩
    unfold fillTmp
    rw [bind_ok (get_apply c)]
    exact check_eq_ok.mpr ⟨⟨hv, fun hz => hne (Conv.digits_eq_nil.mpr hz)⟩, rfl⟩
  | succ room ih =>
    unfold itoaDigits at h
    unfold fillTmp
    rw [bind_ok (get_apply c)]
    simp only [← Conv.digits_eq_nil]
    by_cases hgo : v ≠ 0 ∨ c.digits = []
    · rw [if_pos hgo] at h ⊢
      rw [← Conv.push_digits] at h
      obtain ⟨d, hrun, hd, hfill⟩ := ih h
      refine ⟨d, hrun, hd, ⟨hfill.out, hfill.sp, fun i hi => ?_⟩⟩
      rw [hfill.behind i (by simp only [Conv.push]; omega)]
      exact Function.update_of_ne (by omega) ..
    · rw [if_neg hgo] at h ⊢
      cases h
      exact ⟨c, rfl, rfl, ⟨rfl, rfl, fun _ _ => rfl⟩⟩

/-- One character in front of the others. -/
theorem patch_cons (out : Store) (sp : Nat) (b : Byte) (text : List Byte) :
    patch (Function.update out sp b) (sp + 1) text.length (textAt text) =
      patch out sp (b :: text).length (textAt (b :: text)) := by
  funext a
  unfold patch textAt
  rw [List.length_cons]
  by_cases ha : a = sp
  · subst ha
    rw [if_neg (by omega), if_pos (by omega), Function.update_self, Nat.sub_self]
    rfl
  · rw [Function.update_of_ne ha]
    by_cases hin : sp + 1 ≤ a ∧ a < sp + 1 + text.length
    · obtain ⟨k, rfl⟩ := Nat.exists_eq_add_of_le hin.1
      rw [if_pos hin, if_pos (by omega), Nat.add_sub_cancel_left,
        show sp + 1 + k - sp = k + 1 by omega]
      rfl
    · rw [if_neg hin, if_neg (by omega)]

theorem drainTmp_eq (htp : c.tp = n) : ∃ d, drainTmp n c = .ok ((), d) ∧
    d.out = patch c.out c.sp c.digits.length (textAt c.digits) ∧ d.tmp = c.tmp := by
  induction n generalizing c with
  | zero =>
    refine ⟨c, rfl, ?_, rfl⟩
    rw [Conv.digits_eq_nil.mpr htp]
    exact (patch_zero _ _ _).symm
  | succ n ih =>
    have hdigits : c.digits = c.tmp n :: c.take.digits := by
      unfold Conv.digits Conv.take Conv.emit
      simp only [htp, Nat.add_sub_cancel]
      rw [List.range_succ, List.reverse_append, List.reverse_singleton, List.singleton_append,
        List.map_cons]
    have hout : c.take.out = Function.update c.out c.sp (c.tmp n) := by
      simp only [Conv.take, Conv.emit, htp, Nat.add_sub_cancel]
    obtain ⟨d, hrun, hd, htmp⟩ := ih (c := c.take) (by simp [Conv.take, Conv.emit, htp])
    refine ⟨d, hrun, ?_, htmp⟩
    rw [hd, hout, hdigits]
    exact patch_cons c.out c.sp (c.tmp n) c.take.digits

/-- The call writes the text that `itoa` gives, in front of it nothing and behind it nothing, and
returns its length. -/
theorem itoaCall_eq {value : BitVec 32} (h : itoa value radix () = .ok (text, ())) :
    ∃ d, itoaCall value radix c = .ok (text.length, d) ∧
      d.out = patch c.out c.sp text.length (textAt text) ∧ ∀ i, 16 ≤ i → d.tmp i = c.tmp i := by
  have hnil : ({ c with tp := 0 } : Conv).digits = [] := rfl
  have hlen : ∀ d : Conv, d.digits.length = d.tp := fun d => by
    rw [Conv.digits, List.length_map, List.length_reverse, List.length_range]
  unfold itoa at h
  unfold itoaCall
  by_cases hs : radix = 10 ∧ value.slt 0 = true
  · have hsign : (decide (radix = 10) && value.slt 0) = true := by
      rw [Bool.and_eq_true, decide_eq_true_iff]
      exact hs
    rw [if_pos hs] at h
    obtain ⟨digits, _, hdigits, hpure⟩ := bind_eq_ok.mp h
    cases hpure
    rw [← hnil] at hdigits
    obtain ⟨d, hfill, hd, hkept⟩ := fillTmp_eq hdigits
    obtain ⟨e, hdrain, hout, htmp⟩ := drainTmp_eq (n := d.tp) (c := d.emit (chr '-')) rfl
    have hemit : (d.emit (chr '-')).digits = d.digits := rfl
    refine ⟨e, ?_, ?_, fun i hi => ?_⟩
    · simp only [hsign, if_true]
      rw [bind_ok (modify_apply _ c), bind_ok hfill, bind_ok (get_apply d),
        bind_ok (modify_apply _ d), bind_ok hdrain, List.length_cons, ← hd, hlen]
      rfl
    · rw [hout, hemit, hd, ← patch_cons, ← hkept.out, ← hkept.sp]
      rfl
    · rw [htmp]
      exact hkept.behind i (by simpa using hi)
  · have hsign : (decide (radix = 10) && value.slt 0) = false := by
      rw [Bool.and_eq_false_iff, decide_eq_false_iff_not]
      by_cases hr : radix = 10
      · exact .inr (Bool.eq_false_iff.mpr fun hv => hs ⟨hr, hv⟩)
      · exact .inl hr
    rw [if_neg hs, ← hnil] at h
    obtain ⟨d, hfill, hd, hkept⟩ := fillTmp_eq h
    obtain ⟨e, hdrain, hout, htmp⟩ := drainTmp_eq (n := d.tp) (c := d) rfl
    refine ⟨e, ?_, ?_, fun i hi => ?_⟩
    · simp only [hsign, Bool.false_eq_true, if_false]
      rw [bind_ok (modify_apply _ c), bind_ok hfill, bind_ok (get_apply d), bind_ok hdrain, ← hd,
        hlen]
      rfl
    · rw [hout, hd, hkept.out, hkept.sp]
    · rw [htmp]
      exact hkept.behind i (by simpa using hi)

end Loops

/-! ## Reading a numeral -/

def digitOf (c : Byte) : Option Nat :=
  if 48 ≤ c.toNat ∧ c.toNat ≤ 57 then some (c.toNat - 48)
  else if 97 ≤ c.toNat ∧ c.toNat ≤ 102 then some (c.toNat - 87)
  else none

/-- The number that the digits lead to from `n`. -/
def readDigits (radix : Nat) : Nat → List Byte → Option Nat
  | n, [] => some n
  | n, c :: cs =>
    match digitOf c with
    | none => none
    | some d => if d < radix then readDigits radix (radix * n + d) cs else none

/-- A sign comes in front of the digits. -/
def readNumber (radix : Nat) : List Byte → Option Int
  | [] => none
  | c :: cs =>
    if c = chr '-' then
      if cs = [] then none else (readDigits radix 0 cs).map fun n : Nat => -(n : Int)
    else (readDigits radix 0 (c :: cs)).map Int.ofNat

/-- Digits, with no zero in front of others. -/
structure IsDigits (radix : Nat) (text : List Byte) : Prop where
  ne_nil : text ≠ []
  digit : ∀ c ∈ text, ∃ d, digitOf c = some d ∧ d < radix
  lead : text.head? = some (digitChar 0) → text = [digitChar 0]

/-- Digits alone or behind a sign, which zero has not. -/
def Canonical (radix : Nat) (text : List Byte) : Prop :=
  IsDigits radix text ∨ ∃ ds, text = chr '-' :: ds ∧ IsDigits radix ds ∧ ds ≠ [digitChar 0]

/-- The value that a text of the radix stands for, with a sign in decimal only. -/
def numberOf (value : BitVec 32) (radix : Nat) : Int :=
  if radix = 10 then value.toInt else value.toNat

section Reading
variable {radix n d v : Nat} {c : Byte} {cs text : List Byte}

theorem digitOf_digitChar (hd : d < 16) : digitOf (digitChar d) = some d := by
  revert d
  decide

theorem digitChar_of_digitOf (h : digitOf c = some d) : c = digitChar d := by
  unfold digitOf at h
  unfold digitChar
  have hc := c.isLt
  split_ifs at h with h1 h2
  · cases h
    rw [if_pos (by omega)]
    apply BitVec.eq_of_toNat_eq
    rw [BitVec.toNat_ofNat]
    omega
  · cases h
    rw [if_neg (by omega)]
    apply BitVec.eq_of_toNat_eq
    rw [BitVec.toNat_ofNat]
    omega

theorem numeral_small (hv : v < radix) : numeral radix v = [digitChar v] := by
  unfold numeral
  by_cases h0 : v = 0
  · rw [if_pos h0, h0]
  · rw [if_neg h0, Nat.digits_of_lt radix v h0 hv]
    rfl

/-- The last digit of a numeral. -/
theorem numeral_snoc (hr : 1 < radix) (hn : n ≠ 0) (hd : d < radix) :
    numeral radix (radix * n + d) = numeral radix n ++ [digitChar d] := by
  have hpos : radix * n + d ≠ 0 := by
    have := Nat.mul_pos (Nat.zero_lt_of_lt hr) (Nat.pos_of_ne_zero hn)
    omega
  unfold numeral
  rw [if_neg hpos, if_neg hn, Nat.add_comm, Nat.digits_add radix hr d n hd (.inr hn)]
  simp

theorem readDigits_append (xs ys : List Byte) :
    readDigits radix n (xs ++ ys) = (readDigits radix n xs).bind fun m => readDigits radix m ys := by
  induction xs generalizing n with
  | nil => rfl
  | cons c cs ih =>
    rw [List.cons_append, readDigits, readDigits]
    cases digitOf c with
    | none => rfl
    | some d =>
      simp only
      by_cases hd : d < radix
      · rw [if_pos hd, if_pos hd, ih]
      · rw [if_neg hd, if_neg hd]
        rfl

theorem readDigits_digitChar (hd : d < radix) (h16 : radix ≤ 16) :
    readDigits radix n [digitChar d] = some (radix * n + d) := by
  rw [readDigits, digitOf_digitChar (Nat.lt_of_lt_of_le hd h16)]
  exact if_pos hd

/-- A numeral is read as its number. -/
theorem readDigits_numeral (hr : 1 < radix) (h16 : radix ≤ 16) :
    readDigits radix 0 (numeral radix v) = some v := by
  induction v using Nat.strong_induction_on with
  | h v ih =>
    by_cases hv : v < radix
    · rw [numeral_small hv, readDigits_digitChar hv h16, Nat.mul_zero, Nat.zero_add]
    · have hquot : v / radix ≠ 0 := Nat.div_ne_zero_iff.mpr ⟨by omega, by omega⟩
      have hmod : v % radix < radix := Nat.mod_lt v (by omega)
      have hsplit : v = radix * (v / radix) + v % radix := (Nat.div_add_mod v radix).symm
      rw [hsplit, numeral_snoc hr hquot hmod, readDigits_append,
        ih (v / radix) (Nat.div_lt_self (by omega) hr), Option.bind_some,
        readDigits_digitChar hmod h16]

theorem numeral_ne_nil (radix v : Nat) : numeral radix v ≠ [] := by
  unfold numeral
  by_cases hv : v = 0
  · rw [if_pos hv]
    exact List.cons_ne_nil _ _
  · rw [if_neg hv]
    intro h
    rw [List.map_eq_nil_iff, List.reverse_eq_nil_iff] at h
    exact hv (Nat.digits_eq_nil_iff_eq_zero.mp h)

theorem numeral_digit (hr : 1 < radix) (h16 : radix ≤ 16) :
    ∀ c ∈ numeral radix v, ∃ d, digitOf c = some d ∧ d < radix := by
  intro c hc
  unfold numeral at hc
  by_cases hv : v = 0
  · rw [if_pos hv] at hc
    rw [List.mem_singleton.mp hc]
    exact ⟨0, digitOf_digitChar (by decide), by omega⟩
  · rw [if_neg hv] at hc
    obtain ⟨d, hd, rfl⟩ := List.mem_map.mp hc
    have hlt := Nat.digits_lt_base hr (List.mem_reverse.mp hd)
    exact ⟨d, digitOf_digitChar (Nat.lt_of_lt_of_le hlt h16), hlt⟩

/-- Only the numeral of zero begins with a zero. -/
theorem numeral_lead (hr : 1 < radix) (h16 : radix ≤ 16)
    (h : (numeral radix v).head? = some (digitChar 0)) : v = 0 := by
  induction v using Nat.strong_induction_on with
  | h v ih =>
    by_cases hv : v < radix
    · rw [numeral_small hv] at h
      have hchar : digitChar v = digitChar 0 := Option.some.inj h
      have hd := digitOf_digitChar (d := v) (by omega)
      rw [hchar, digitOf_digitChar (by decide)] at hd
      exact (Option.some.inj hd).symm
    · have hquot : v / radix ≠ 0 := Nat.div_ne_zero_iff.mpr ⟨by omega, by omega⟩
      have hmod : v % radix < radix := Nat.mod_lt v (by omega)
      rw [← Nat.div_add_mod v radix, numeral_snoc hr hquot hmod,
        List.head?_append_of_ne_nil _ (numeral_ne_nil radix _)] at h
      exact absurd (ih (v / radix) (Nat.div_lt_self (by omega) hr) h) hquot

theorem numeral_isDigits (hr : 1 < radix) (h16 : radix ≤ 16) : IsDigits radix (numeral radix v) where
  ne_nil := numeral_ne_nil radix v
  digit := numeral_digit hr h16
  lead h := by
    rw [numeral_lead hr h16 h]
    rfl

/-- Digits without a leading zero are the numeral of what they are read as. -/
theorem IsDigits.eq_numeral (hr : 1 < radix) (h16 : radix ≤ 16) (h : IsDigits radix text) :
    ∃ n, readDigits radix 0 text = some n ∧ text = numeral radix n := by
  induction text using List.reverseRecOn with
  | nil => exact absurd rfl h.ne_nil
  | append_singleton cs c ih =>
    obtain ⟨d, hd, hlt⟩ := h.digit c (by simp)
    obtain rfl := digitChar_of_digitOf hd
    by_cases hcs : cs = []
    · subst hcs
      refine ⟨d, ?_, (numeral_small hlt).symm⟩
      rw [List.nil_append, readDigits_digitChar hlt h16, Nat.mul_zero, Nat.zero_add]
    · have hhead : cs.head? = some (digitChar 0) → False := fun h0 => by
        have hlen := congrArg List.length
          (h.lead ((List.head?_append_of_ne_nil _ hcs).trans h0))
        rw [List.length_append, List.length_singleton, List.length_singleton] at hlen
        exact hcs (List.eq_nil_of_length_eq_zero (by omega))
      have hfront : IsDigits radix cs :=
        ⟨hcs, fun c hc => h.digit c (List.mem_append_left _ hc), fun h0 => (hhead h0).elim⟩
      obtain ⟨n, hread, hn⟩ := ih hfront
      have hne : n ≠ 0 := by
        rintro rfl
        exact hhead (by rw [hn]; rfl)
      refine ⟨radix * n + d, ?_, ?_⟩
      · rw [readDigits_append, hread, Option.bind_some, readDigits_digitChar hlt h16]
      · rw [numeral_snoc hr hne hlt, ← hn]

theorem IsDigits.ne_sign (h : IsDigits radix (c :: cs)) : c ≠ chr '-' := by
  rintro rfl
  obtain ⟨d, hd, -⟩ := h.digit (chr '-') List.mem_cons_self
  cases hd

theorem readNumber_digits (h : IsDigits radix text) :
    readNumber radix text = (readDigits radix 0 text).map Int.ofNat := by
  cases text with
  | nil => exact absurd rfl h.ne_nil
  | cons c cs => exact if_neg h.ne_sign

theorem readNumber_sign (h : cs ≠ []) :
    readNumber radix (chr '-' :: cs) = (readDigits radix 0 cs).map fun n : Nat => -(n : Int) := by
  rw [readNumber, if_pos rfl, if_neg h]

/-- A number has one canonical text. -/
theorem Canonical.unique {text' : List Byte} (hr : 1 < radix) (h16 : radix ≤ 16)
    (h : Canonical radix text) (h' : Canonical radix text')
    (heq : readNumber radix text = readNumber radix text') : text = text' := by
  have hneg : ∀ {n : Nat}, numeral radix n ≠ [digitChar 0] → n ≠ 0 := by
    rintro n hn rfl
    exact hn rfl
  rcases h with h | ⟨ds, rfl, h, hne⟩ <;> rcases h' with h' | ⟨ds', rfl, h', hne'⟩
  · obtain ⟨n, hread, hn⟩ := h.eq_numeral hr h16
    obtain ⟨m, hread', hm⟩ := h'.eq_numeral hr h16
    rw [readNumber_digits h, readNumber_digits h', hread, hread'] at heq
    have hnm : n = m := Int.ofNat.inj (Option.some.inj heq)
    rw [hn, hm, hnm]
  · obtain ⟨n, hread, hn⟩ := h.eq_numeral hr h16
    obtain ⟨m, hread', hm⟩ := h'.eq_numeral hr h16
    rw [readNumber_digits h, readNumber_sign h'.ne_nil, hread, hread'] at heq
    have hnm : (n : Int) = -(m : Int) := Option.some.inj heq
    exact absurd (by omega) (hneg (hm ▸ hne'))
  · obtain ⟨n, hread, hn⟩ := h.eq_numeral hr h16
    obtain ⟨m, hread', hm⟩ := h'.eq_numeral hr h16
    rw [readNumber_sign h.ne_nil, readNumber_digits h', hread, hread'] at heq
    have hnm : -(n : Int) = (m : Int) := Option.some.inj heq
    exact absurd (by omega) (hneg (hn ▸ hne))
  · obtain ⟨n, hread, hn⟩ := h.eq_numeral hr h16
    obtain ⟨m, hread', hm⟩ := h'.eq_numeral hr h16
    rw [readNumber_sign h.ne_nil, readNumber_sign h'.ne_nil, hread, hread'] at heq
    have hnm : -(n : Int) = -(m : Int) := Option.some.inj heq
    rw [hn, hm, show n = m by omega]

end Reading

/-! ## The round trip -/

section Text
variable {value : BitVec 32} {radix : Nat}

theorem radix_bounds (hr : radix = 10 ∨ radix = 16) : 1 < radix ∧ radix ≤ 16 := by
  rcases hr with rfl | rfl <;> decide

theorem numberText_canonical (hr : radix = 10 ∨ radix = 16) :
    Canonical radix (numberText value radix) := by
  obtain ⟨hone, h16⟩ := radix_bounds hr
  unfold numberText
  split
  · next h =>
    have hval := neg_toNat (slt_zero_iff.mp h.2)
    have hlt := slt_zero_iff.mp h.2
    refine .inr ⟨_, rfl, numeral_isDigits hone h16, fun hzero => ?_⟩
    have hlead := numeral_lead hone h16 (by rw [hzero]; rfl)
    omega
  · exact .inl (numeral_isDigits hone h16)

theorem readNumber_numberText (hr : radix = 10 ∨ radix = 16) :
    readNumber radix (numberText value radix) = some (numberOf value radix) := by
  obtain ⟨hone, h16⟩ := radix_bounds hr
  unfold numberText numberOf
  split
  · next h =>
    rw [readNumber_sign (numeral_ne_nil radix _), readDigits_numeral hone h16, if_pos h.1,
      Option.map_some, neg_toNat (slt_zero_iff.mp h.2), neg_neg]
  · next h =>
    rw [readNumber_digits (numeral_isDigits hone h16), readDigits_numeral hone h16, Option.map_some]
    by_cases h10 : radix = 10
    · have hge : ¬ value.toInt < 0 := fun hlt => h ⟨h10, slt_zero_iff.mpr hlt⟩
      rw [if_pos h10, ← toNat_of_nonneg hge]
      rfl
    · rw [if_neg h10]
      rfl

/-- A sign and ten digits at most. -/
theorem numberText_length (hr : radix = 10 ∨ radix = 16) : (numberText value radix).length ≤ 11 := by
  obtain ⟨hone, -⟩ := radix_bounds hr
  have hdigits : ∀ x : BitVec 32, (numeral radix x.toNat).length ≤ 10 := by
    intro x
    rw [numeral_length_le hone (by decide)]
    refine Nat.lt_of_lt_of_le x.isLt ?_
    rcases hr with rfl | rfl <;> norm_num
  unfold numberText
  split
  · exact Nat.succ_le_succ (hdigits _)
  · exact Nat.le_succ_of_le (hdigits _)

theorem ofInt_numberOf : BitVec.ofInt 32 (numberOf value radix) = value := by
  unfold numberOf
  by_cases hr : radix = 10
  · rw [if_pos hr, BitVec.ofInt_toInt]
  · rw [if_neg hr, BitVec.ofInt_natCast, BitVec.ofNat_toNat, BitVec.setWidth_eq]

end Text

/-- `itoa` writes the one canonical numeral of the value, which is read back as the value, and nothing
else; it returns the length, 11 at most, and does not write behind its buffer. -/
theorem itoa_round_trips (value : BitVec 32) (radix : Nat) (hr : radix = 10 ∨ radix = 16) (c : Conv) :
    ∃ text d, itoaCall value radix c = .ok (text.length, d) ∧
      d.out = patch c.out c.sp text.length (textAt text) ∧ (∀ i, 16 ≤ i → d.tmp i = c.tmp i) ∧
      Canonical radix text ∧ readNumber radix text = some (numberOf value radix) ∧
      BitVec.ofInt 32 (numberOf value radix) = value ∧
      (∀ text', Canonical radix text' → readNumber radix text' = some (numberOf value radix) →
        text' = text) ∧
      text.length ≤ 11 := by
  obtain ⟨hone, h16⟩ := radix_bounds hr
  obtain ⟨d, hrun, hout, htmp⟩ := itoaCall_eq (c := c) (itoa_eq hr value)
  refine ⟨_, d, hrun, hout, htmp, numberText_canonical hr, readNumber_numberText hr, ofInt_numberOf,
    fun text' hcanon hread => ?_, numberText_length hr⟩
  exact hcanon.unique hone h16 (numberText_canonical hr) (hread.trans (readNumber_numberText hr).symm)

/-- The most negative number takes all eleven characters. -/
theorem itoa_round_trips_min :
    ∃ text d, itoaCall (BitVec.intMin 32) 10 ⟨fun _ => 0, 0, fun _ => 0, 0⟩ = .ok (text.length, d) ∧
      readNumber 10 text = some (-2147483648) := by
  obtain ⟨text, d, hrun, -, -, -, hread, -⟩ :=
    itoa_round_trips (BitVec.intMin 32) 10 (.inl rfl) ⟨fun _ => 0, 0, fun _ => 0, 0⟩
  exact ⟨text, d, hrun, hread⟩

end Frog.Libc
