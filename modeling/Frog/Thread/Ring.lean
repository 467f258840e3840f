import Frog.Lib.Ring
import Frog.Thread.IoQueue
import Mathlib.Algebra.Group.Nat.Defs
import Mathlib.Data.List.TakeDrop

/-!
# The ring of a queue

`core/lib/ioqueue.c` on the contents of the queue as a list: `ioqueue_avaliable` and
`ioqueue_unread` count what the list leaves and holds, and a pass of `ioqueue_put_data` or
`ioqueue_get_data` moves all its bytes or none.
-/

namespace Frog.Thread

set_option autoImplicit false

namespace CircleQueue

/-- The bytes `xs` are in the queue. -/
structure Carries (q : CircleQueue) (xs : List Byte) : Prop where
  small : q.size.toNat < 2 ^ 31
  ring : Ring.Holds q.size.toNat q.buf q.consumorP.toNat xs
  tail : q.producerP.toNat = (q.consumorP.toNat + xs.length) % q.size.toNat

variable {q : CircleQueue} {xs : List Byte} {x : Byte}

theorem slt_iff {a b : BitVec 32} (ha : a.toNat < 2 ^ 31) (hb : b.toNat < 2 ^ 31) :
    a.slt b = true ↔ a.toNat < b.toNat := by
  rw [BitVec.slt_iff_toInt_lt, BitVec.toInt_eq_toNat_of_lt (by omega),
    BitVec.toInt_eq_toNat_of_lt (by omega)]
  omega

theorem toNat_one : (1 : BitVec 32).toNat = 1 := rfl

namespace Carries

theorem init {size : BitVec 32} (h0 : 0 < size.toNat) (h : size.toNat < 2 ^ 31) :
    (CircleQueue.init size).Carries [] :=
  ⟨h, .nil h0, (Nat.zero_mod _).symm⟩

theorem producer_lt (h : q.Carries xs) : q.producerP.toNat < q.size.toNat := by
  rw [h.tail]
  exact h.ring.end_lt

theorem empty_iff (h : q.Carries xs) : q.consumorP = q.producerP ↔ xs = [] := by
  rw [← h.ring.end_eq_iff, ← h.tail, ← BitVec.toNat_inj]
  exact eq_comm

theorem consumor_slt (h : q.Carries xs) :
    q.producerP.slt q.consumorP = true ↔ q.producerP.toNat < q.consumorP.toNat := by
  have := h.small
  have := h.producer_lt
  have := h.ring.start
  exact slt_iff (by omega) (by omega)

/-- Where the last byte lies, without the remainder. -/
theorem tail_eq (h : q.Carries xs) : q.producerP.toNat =
    if q.consumorP.toNat + xs.length < q.size.toNat then q.consumorP.toNat + xs.length
    else q.consumorP.toNat + xs.length - q.size.toNat := by
  rw [h.tail]
  exact Ring.wrap h.ring.start h.ring.spare

theorem avaliable_eq (h : q.Carries xs) : q.avaliable.toNat = q.size.toNat - 1 - xs.length := by
  have hsmall := h.small
  have hspare := h.ring.spare
  have hstart := h.ring.start
  have htail := h.tail_eq
  unfold avaliable
  by_cases he : q.consumorP = q.producerP
  · rw [if_pos he, BitVec.toNat_sub, (h.empty_iff.mp he)]
    simp only [List.length_nil, toNat_one]
    omega
  · have hne : xs.length ≠ 0 := fun h0 => he (h.empty_iff.mpr (List.eq_nil_of_length_eq_zero h0))
    rw [if_neg he]
    by_cases hlt : q.producerP.toNat < q.consumorP.toNat
    · rw [if_pos (h.consumor_slt.mpr hlt)]
      simp only [BitVec.toNat_sub, toNat_one]
      split at htail <;> omega
    · rw [if_neg fun hs => hlt (h.consumor_slt.mp hs)]
      simp only [BitVec.toNat_sub, BitVec.toNat_add, toNat_one]
      split at htail <;> omega

theorem unread_eq (h : q.Carries xs) : q.unread.toNat = xs.length := by
  have hsmall := h.small
  have hspare := h.ring.spare
  have hstart := h.ring.start
  have htail := h.tail_eq
  unfold unread
  by_cases he : q.consumorP = q.producerP
  · rw [if_pos he, h.empty_iff.mp he]
    rfl
  · have hne : xs.length ≠ 0 := fun h0 => he (h.empty_iff.mpr (List.eq_nil_of_length_eq_zero h0))
    rw [if_neg he]
    by_cases hlt : q.producerP.toNat < q.consumorP.toNat
    · rw [if_pos (h.consumor_slt.mpr hlt)]
      simp only [BitVec.toNat_sub, BitVec.toNat_add]
      split at htail <;> omega
    · rw [if_neg fun hs => hlt (h.consumor_slt.mp hs)]
      simp only [BitVec.toNat_sub]
      split at htail <;> omega

theorem nextIndex_eq (h : q.Carries xs) {i : BitVec 32} (hi : i.toNat < q.size.toNat) :
    (q.nextIndex i).toNat = (i.toNat + 1) % q.size.toNat := by
  have := h.small
  unfold nextIndex
  have hle : i.toNat + 1 < 2 ^ 32 := by omega
  rw [BitVec.toNat_umod, BitVec.toNat_add, toNat_one, Nat.mod_eq_of_lt hle]

/-- One byte is written. -/
theorem write (h : q.Carries xs) (hs : xs.length + 1 < q.size.toNat) :
    Carries { q with
      buf := fun i => if i = q.producerP.toNat then x else q.buf i
      producerP := q.nextIndex q.producerP } (xs ++ [x]) := by
  refine ⟨h.small, h.ring.push hs ?_ fun i hi => ?_, ?_⟩
  · rw [← h.tail]
    exact if_pos rfl
  · rw [← h.tail] at hi
    exact if_neg hi
  · have hn := h.nextIndex_eq h.producer_lt
    rw [h.tail, Nat.mod_add_mod] at hn
    rw [List.length_append]
    exact hn

/-- One byte is read. -/
theorem read (h : q.Carries (x :: xs)) : q.buf q.consumorP.toNat = x ∧
    Carries { q with consumorP := q.nextIndex q.consumorP } xs := by
  obtain ⟨hx, hr⟩ := h.ring.pop
  have hn := h.nextIndex_eq h.ring.start
  refine ⟨hx, h.small, by rwa [← hn] at hr, ?_⟩
  have ht := h.tail
  rw [List.length_cons, Nat.add_comm xs.length, ← Nat.add_assoc] at ht
  change q.producerP.toNat = ((q.nextIndex q.consumorP).toNat + xs.length) % q.size.toNat
  rw [hn, Nat.mod_add_mod]
  exact ht

theorem putLoop_eq (data : List Byte) (h : q.Carries xs)
    (hs : xs.length + data.length < q.size.toNat) :
    (putLoop data.length data q).1 = 0 ∧ (putLoop data.length data q).2.Carries (xs ++ data) ∧
      (putLoop data.length data q).2.size = q.size := by
  induction data generalizing q xs with
  | nil =>
    rw [List.append_nil]
    exact ⟨rfl, h, rfl⟩
  | cons x data ih =>
    rw [List.length_cons] at hs ⊢
    have hroom : 0 < q.avaliable := by
      apply BitVec.lt_def.mpr
      rw [h.avaliable_eq]
      simp only [BitVec.ofNat_eq_ofNat, BitVec.toNat_zero]
      omega
    have hrest : (xs ++ [x]).length + data.length < q.size.toNat := by
      rw [List.length_append, List.length_singleton]
      omega
    obtain ⟨h0, hc, hz⟩ := ih (h.write (x := x) (by omega)) hrest
    rw [List.append_assoc, List.singleton_append] at hc
    simp only [putLoop, if_pos hroom]
    exact ⟨h0, hc, hz⟩

theorem getLoop_eq (ys got : List Byte) {zs : List Byte} (h : q.Carries (ys ++ zs)) :
    (getLoop ys.length got q).1 = got ++ ys ∧ (getLoop ys.length got q).2.Carries zs ∧
      (getLoop ys.length got q).2.size = q.size := by
  induction ys generalizing q got with
  | nil =>
    rw [List.append_nil]
    exact ⟨rfl, h, rfl⟩
  | cons y ys ih =>
    rw [List.cons_append] at h
    have hun : 0 < q.unread := by
      apply BitVec.lt_def.mpr
      rw [h.unread_eq, List.length_cons]
      simp only [BitVec.ofNat_eq_ofNat, BitVec.toNat_zero]
      omega
    obtain ⟨hy, hc⟩ := h.read
    obtain ⟨h0, hc, hz⟩ := ih (got ++ [y]) hc
    rw [List.append_assoc, List.singleton_append] at h0
    simp only [List.length_cons, getLoop, if_pos hun, hy]
    exact ⟨h0, hc, hz⟩

/-- A pass writes all of the data, and it leaves a cell to spare, or nothing. -/
theorem putPass_cases (h : q.Carries xs) {data : List Byte} (hd : data.length < 2 ^ 32) :
    q.putPass data data.length = (data.length, q) ∨
      (q.putPass data data.length).1 = 0 ∧ (q.putPass data data.length).2.Carries (xs ++ data) ∧
        (q.putPass data data.length).2.size = q.size := by
  unfold putPass
  by_cases hlt : BitVec.ofNat 32 data.length < q.avaliable
  · right
    rw [if_pos hlt]
    have hle := BitVec.lt_def.mp hlt
    rw [BitVec.toNat_ofNat, Nat.mod_eq_of_lt hd, h.avaliable_eq] at hle
    exact h.putLoop_eq data (by omega)
  · left
    rw [if_neg hlt]

/-- A pass reads `count` bytes from the front, or nothing. -/
theorem getPass_cases (h : q.Carries xs) {count : Nat} (hd : count < 2 ^ 32) :
    q.getPass count [] = ([], q) ∨
      ∃ ys zs, xs = ys ++ zs ∧ ys.length = count ∧ (q.getPass count []).1 = ys ∧
        (q.getPass count []).2.Carries zs ∧ (q.getPass count []).2.size = q.size := by
  unfold getPass
  by_cases hle : BitVec.ofNat 32 count ≤ q.unread
  · right
    have hc := BitVec.le_def.mp hle
    rw [BitVec.toNat_ofNat, Nat.mod_eq_of_lt hd, h.unread_eq] at hc
    have hlen : (xs.take count).length = count := by
      rw [List.length_take]
      omega
    have hg : q.Carries (xs.take count ++ xs.drop count) := by
      rwa [List.take_append_drop]
    obtain ⟨h1, h2, h3⟩ := getLoop_eq (xs.take count) [] hg
    rw [hlen] at h1 h2 h3
    rw [if_pos hle]
    exact ⟨_, _, (List.take_append_drop count xs).symm, hlen, h1, h2, h3⟩
  · left
    rw [if_neg hle]

end Carries

end CircleQueue

end Frog.Thread
