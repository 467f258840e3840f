import Frog.Mm.Queues
import Frog.Thread.Ring

/-!
# What a queue has room for

The tests of `core/lib/ioqueue.c` and the two transfers, on every queue that passes of
`ioqueue_put_data` and `ioqueue_get_data` can make of a new one.
-/

namespace Frog.Thread

set_option autoImplicit false

namespace CircleQueue

/-- `QUEUE_MAX`. -/
def queueMax : BitVec 32 := 4000

/-- `ioqueue_is_full`. -/
def isFull (q : CircleQueue) : Bool := q.producerP == queueMax

/-- `ioqueue_is_empty`. -/
def isEmpty (q : CircleQueue) : Bool := q.producerP == q.consumorP

inductive Reachable : CircleQueue → Prop
  | init {s t : Mm.State} {queue : Nat} {size : BitVec 32} (hs : Mm.Paged s)
      (h : Mm.initIoqueue size s = .ok (queue, t)) (hq : queue ≠ 0) (hsize : 1 < size.toNat) :
      Reachable (init size)
  | put {q : CircleQueue} (data : List Byte) (hd : data.length < 2 ^ 32) (h : Reachable q) :
      Reachable (q.putPass data data.length).2
  | get {q : CircleQueue} (count : BitVec 32) (h : Reachable q) :
      Reachable (q.getPass count.toNat []).2

/-- The laws, with `count` as what is put or got; a transfer that waits leaves bytes over. -/
structure CapacityLaws (q : CircleQueue) (count : BitVec 32) : Prop where
  sum : q.unread.toNat + q.avaliable.toNat = q.size.toNat - 1
  full : q.isFull = true ↔ q.avaliable = 0
  empty : q.isEmpty = true ↔ q.unread = 0
  put : ∀ data : List Byte, data.length = count.toNat →
    ((q.putPass data data.length).1 = 0 ↔ count ≤ q.avaliable)
  get : (q.getPass count.toNat []).1.length = count.toNat ↔ count ≤ q.unread

/-- The producer would be one cell behind the consumer. -/
def FillsUp (q : CircleQueue) (count : BitVec 32) : Prop :=
  count.toNat < q.size.toNat ∧
    (q.producerP.toNat + count.toNat + 1) % q.size.toNat = q.consumorP.toNat

section Laws
variable {q : CircleQueue} {xs : List Byte} {count : BitVec 32}

/-- A put leaves a cell to spare besides that of the ring. -/
theorem Reachable.carries (h : Reachable q) : ∃ xs, q.Carries xs ∧ xs.length + 1 < q.size.toNat := by
  induction h with
  | init hs h hq hsize =>
    refine ⟨[], .init (by omega) (Mm.size_lt hs h hq), ?_⟩
    rw [List.length_nil, Nat.zero_add]
    exact hsize
  | @put q data hd _ ih =>
    obtain ⟨xs, hx, hspare⟩ := ih
    unfold putPass
    by_cases hlt : BitVec.ofNat 32 data.length < q.avaliable
    · have hl := BitVec.lt_def.mp hlt
      rw [hx.avaliable_eq, BitVec.toNat_ofNat, Nat.mod_eq_of_lt hd] at hl
      obtain ⟨-, hc, hz⟩ := hx.putLoop_eq data (by omega)
      rw [if_pos hlt]
      refine ⟨_, hc, ?_⟩
      rw [hz, List.length_append]
      omega
    · rw [if_neg hlt]
      exact ⟨xs, hx, hspare⟩
  | get count _ ih =>
    obtain ⟨xs, hx, hspare⟩ := ih
    rcases hx.getPass_cases count.isLt with he | ⟨ys, zs, rfl, -, -, hc, hz⟩
    · rw [he]
      exact ⟨xs, hx, hspare⟩
    · refine ⟨zs, hc, ?_⟩
      rw [List.length_append] at hspare
      rw [hz]
      omega

namespace Carries

/-- Behind `m` more bytes the ends meet. -/
theorem wraps_iff (h : q.Carries xs) {m : Nat} (h0 : 0 < xs.length + m)
    (hm : xs.length + m < 2 * q.size.toNat) :
    (q.producerP.toNat + m) % q.size.toNat = q.consumorP.toNat ↔ xs.length + m = q.size.toNat := by
  have hstart := h.ring.start
  rw [h.tail, Nat.mod_add_mod, Nat.add_assoc]
  constructor
  · intro he
    have hdiv := Nat.div_add_mod (q.consumorP.toNat + (xs.length + m)) q.size.toNat
    rw [he] at hdiv
    generalize (q.consumorP.toNat + (xs.length + m)) / q.size.toNat = d at hdiv
    rcases d with _ | _ | d
    · omega
    · omega
    · have hge : q.size.toNat * 2 ≤ q.size.toNat * (d + 1 + 1) :=
        Nat.mul_le_mul_left _ (by omega)
      omega
  · intro he
    rw [he, Nat.add_mod_right, Nat.mod_eq_of_lt hstart]

theorem fillsUp_iff (h : q.Carries xs) : q.FillsUp count ↔ count = q.avaliable := by
  have hspare := h.ring.spare
  rw [← BitVec.toNat_inj, h.avaliable_eq]
  unfold FillsUp
  constructor
  · rintro ⟨hlt, he⟩
    have hw := (h.wraps_iff (m := count.toNat + 1) (by omega) (by omega)).mp he
    omega
  · intro he
    refine ⟨by omega, ?_⟩
    exact (h.wraps_iff (m := count.toNat + 1) (by omega) (by omega)).mpr (by omega)

theorem put_iff (h : q.Carries xs) {data : List Byte} (hd : data.length = count.toNat) :
    (q.putPass data data.length).1 = 0 ↔ count < q.avaliable ∨ count = 0 := by
  have hcount : BitVec.ofNat 32 data.length = count := by
    rw [hd, BitVec.ofNat_toNat, BitVec.setWidth_eq]
  have hspare := h.ring.spare
  unfold putPass
  rw [hcount]
  by_cases hlt : count < q.avaliable
  · rw [if_pos hlt]
    have hl := BitVec.lt_def.mp hlt
    rw [h.avaliable_eq] at hl
    exact iff_of_true (h.putLoop_eq data (by omega)).1 (.inl hlt)
  · rw [if_neg hlt]
    constructor
    · intro h0
      exact .inr (BitVec.eq_of_toNat_eq (hd.symm.trans h0))
    · rintro (hc | rfl)
      · exact absurd hc hlt
      · exact hd

theorem get_iff (h : q.Carries xs) :
    (q.getPass count.toNat []).1.length = count.toNat ↔ count ≤ q.unread := by
  have hcount : BitVec.ofNat 32 count.toNat = count := by
    rw [BitVec.ofNat_toNat, BitVec.setWidth_eq]
  have hu := h.unread_eq
  unfold getPass
  rw [hcount]
  by_cases hle : count ≤ q.unread
  · have hl := BitVec.le_def.mp hle
    have hlen : (xs.take count.toNat).length = count.toNat := by
      rw [List.length_take]
      omega
    have hg := getLoop_eq (xs.take count.toNat) [] ((List.take_append_drop count.toNat xs).symm ▸ h)
    rw [hlen] at hg
    rw [if_pos hle]
    refine iff_of_true ?_ hle
    exact (congrArg List.length hg.1).trans hlen
  · rw [if_neg hle]
    refine iff_of_false (fun h0 => hle ?_) hle
    have h0 : 0 = count.toNat := h0
    exact BitVec.le_def.mpr (h0 ▸ Nat.zero_le _)

end Carries

theorem capacityLaws_iff (h : Reachable q) : CapacityLaws q count ↔
    q.producerP ≠ queueMax ∧ (count = 0 ∨ ¬ q.FillsUp count) := by
  obtain ⟨xs, hx, hspare⟩ := h.carries
  have hfull : q.isFull = true ↔ q.producerP = queueMax := beq_iff_eq
  have hroom : q.avaliable ≠ 0 := by
    intro h0
    have ha := hx.avaliable_eq
    rw [h0] at ha
    have h0 : (0 : BitVec 32).toNat = 0 := rfl
    omega
  have hle : count ≤ q.avaliable ↔ count < q.avaliable ∨ count = q.avaliable := by
    rw [BitVec.le_def, BitVec.lt_def, ← BitVec.toNat_inj]
    exact Nat.le_iff_lt_or_eq
  constructor
  · intro hl
    refine ⟨fun hp => hroom (hl.full.mp (hfull.mpr hp)), ?_⟩
    by_contra hc
    obtain ⟨h0, hfill⟩ := not_or.mp hc
    have heq := hx.fillsUp_iff.mp (not_not.mp hfill)
    have hlen : (List.replicate count.toNat (0 : Byte)).length = count.toNat :=
      List.length_replicate
    have hput := hl.put _ hlen
    rw [hx.put_iff hlen] at hput
    rcases hput.mpr (hle.mpr (.inr heq)) with hlt | hz
    · exact absurd (heq ▸ hlt) (Nat.lt_irrefl _)
    · exact h0 hz
  · rintro ⟨hp, hc⟩
    refine ⟨?_, ?_, ?_, fun data hd => ?_, hx.get_iff⟩
    · rw [hx.unread_eq, hx.avaliable_eq]
      omega
    · exact iff_of_false (fun hf => hp (hfull.mp hf)) hroom
    · have he : q.isEmpty = true ↔ q.producerP = q.consumorP := beq_iff_eq
      rw [he, eq_comm, hx.empty_iff, ← BitVec.toNat_inj, hx.unread_eq]
      exact List.length_eq_zero_iff.symm
    · rw [hx.put_iff hd, hle]
      constructor
      · rintro (hlt | rfl)
        · exact .inl hlt
        · exact hle.mp (BitVec.le_def.mpr (Nat.zero_le _))
      · rintro (hlt | heq)
        · exact .inl hlt
        · exact .inr (hc.resolve_right (not_not.mpr (hx.fillsUp_iff.mpr heq)))

theorem reachable_small : Reachable (init 16) := by
  obtain ⟨t, ht, -⟩ := Mm.initIoqueue_one (k := 0) (i := 0) 16 Mm.booted_paged
    (by decide) (by decide) (by decide)
  exact .init Mm.booted_paged ht (by decide) (by decide)

theorem capacityLaws_iff_small : CapacityLaws (init 16) 14 ↔
    (init 16).producerP ≠ queueMax ∧ ((14 : BitVec 32) = 0 ∨ ¬ (init 16).FillsUp 14) :=
  capacityLaws_iff reachable_small

/-- Fifteen bytes have room in a ring of sixteen, but the put waits. -/
theorem exact_fit_waits : Reachable (init 16) ∧ (init 16).avaliable = 15 ∧
    ((init 16).putPass (List.replicate 15 7) 15).1 = 15 := by
  refine ⟨reachable_small, ?_⟩
  decide +kernel

end Laws

end CircleQueue

end Frog.Thread
