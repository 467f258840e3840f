import Frog.PackageFs.Packet

/-!
# Transfers of packages

What the functions of `packagefs.c` do with a queue that carries given bytes.
-/

namespace Frog.PackageFs

set_option autoImplicit false
open Prog
open Frog.Thread (CircleQueue)

section Lemmas
variable {q : CircleQueue} {s t : State} {f : File} {xs ys data : List Byte} {p : Package}

/-- A pass that leaves nothing to write has written all. -/
theorem putPass_done (h : q.Carries xs) (hd : data.length < 2 ^ 32)
    (h0 : (q.putPass data data.length).1 = 0) :
    (q.putPass data data.length).2.Carries (xs ++ data) ∧
      (q.putPass data data.length).2.size = q.size := by
  rcases h.putPass_cases hd with he | ⟨-, hc, hz⟩
  · rw [he] at h0 ⊢
    rw [List.eq_nil_of_length_eq_zero h0, List.append_nil]
    exact ⟨h, rfl⟩
  · exact ⟨hc, hz⟩

theorem putPass_room (h : q.Carries xs) (hd : xs.length + data.length + 1 < q.size.toNat) :
    (q.putPass data data.length).1 = 0 := by
  have hsmall := h.small
  have hlt : BitVec.ofNat 32 data.length < q.avaliable := by
    apply BitVec.lt_def.mpr
    rw [h.avaliable_eq, BitVec.toNat_ofNat, Nat.mod_eq_of_lt (by omega)]
    omega
  unfold CircleQueue.putPass
  rw [if_pos hlt]
  exact (h.putLoop_eq data (by omega)).1

theorem getPass_front (h : q.Carries (xs ++ ys)) :
    (q.getPass xs.length []).1 = xs ∧ (q.getPass xs.length []).2.Carries ys ∧
      (q.getPass xs.length []).2.size = q.size := by
  have hsmall := h.small
  have hspare := h.ring.spare
  rw [List.length_append] at hspare
  have hle : BitVec.ofNat 32 xs.length ≤ q.unread := by
    apply BitVec.le_def.mpr
    rw [h.unread_eq, BitVec.toNat_ofNat, Nat.mod_eq_of_lt (by omega), List.length_append]
    omega
  unfold CircleQueue.getPass
  rw [if_pos hle]
  exact Thread.CircleQueue.Carries.getLoop_eq xs [] h

theorem getPass_short {n : Nat} (h : q.Carries xs) (hn : xs.length < n) (hlt : n < 2 ^ 32) :
    q.getPass n [] = ([], q) := by
  have hle : ¬ BitVec.ofNat 32 n ≤ q.unread := by
    intro hle
    have hle := BitVec.le_def.mp hle
    rw [h.unread_eq, BitVec.toNat_ofNat, Nat.mod_eq_of_lt hlt] at hle
    omega
  unfold CircleQueue.getPass
  rw [if_neg hle]

@[simp] theorem setMsgList_self (q : CircleQueue) : (s.setMsgList f q).msgList f = q :=
  Function.update_self ..

theorem setMsgList_other {g : File} (hg : g ≠ f) (q : CircleQueue) :
    (s.setMsgList f q).msgList g = s.msgList g := Function.update_of_ne hg ..

@[simp] theorem setMsgList_twice (q q' : CircleQueue) :
    (s.setMsgList f q).setMsgList f q' = s.setMsgList f q' := by
  simp only [State.setMsgList, Function.update_idem]

/-- What a put that returns has done. -/
theorem put_ok {r : BitVec 32} (hd : data.length < 2 ^ 32)
    (h : ioqueuePutData f data s = .ok (r, t)) :
    r = BitVec.ofNat 32 data.length ∧ ∃ q, t = s.setMsgList f q ∧
      ∀ xs, (s.msgList f).Carries xs → q.Carries (xs ++ data) ∧ q.size = (s.msgList f).size := by
  have hw : wp (fun _ => True) (ioqueuePutData f data) (fun r t =>
      r = BitVec.ofNat 32 data.length ∧ ∃ q, t = s.setMsgList f q ∧
      ∀ xs, (s.msgList f).Carries xs → q.Carries (xs ++ data) ∧ q.size = (s.msgList f).size) s := by
    simp only [ioqueuePutData, wp_bind, wp_get, wp_check, wp_modify, wp_pure]
    exact ⟨fun h0 => ⟨trivial, _, rfl, fun xs hx => putPass_done hx hd h0⟩, fun _ => trivial⟩
  have hr := wp_ok hw h
  exact hr

theorem put_room (h : (s.msgList f).Carries xs)
    (hd : xs.length + data.length + 1 < (s.msgList f).size.toNat) :
    ∃ q, ioqueuePutData f data s = .ok (BitVec.ofNat 32 data.length, s.setMsgList f q) ∧
      q.Carries (xs ++ data) ∧ q.size = (s.msgList f).size := by
  have h0 := putPass_room h hd
  have hsmall := h.small
  refine ⟨_, ?_, putPass_done h (by omega) h0⟩
  apply run_eq_of_wp
  simp only [ioqueuePutData, wp_bind, wp_get, wp_check, wp_modify, wp_pure]
  exact ⟨fun _ => ⟨trivial, trivial⟩, fun hn => hn h0⟩

theorem get_front {count : BitVec 32} (h : (s.msgList f).Carries (xs ++ ys))
    (hx : xs.length = count.toNat) :
    ∃ q, ioqueueGetData f count s = .ok (xs, s.setMsgList f q) ∧ q.Carries ys := by
  obtain ⟨h1, h2, -⟩ := getPass_front h
  rw [hx] at h1 h2
  refine ⟨_, ?_, h2⟩
  apply run_eq_of_wp
  simp only [ioqueueGetData, wp_bind, wp_get, wp_check, wp_modify, wp_pure]
  refine ⟨fun _ => ⟨h1, trivial⟩, fun hn => hn ?_⟩
  rw [h1, hx]

/-- What a get that returns has done. -/
theorem get_ok {count : BitVec 32} {r : List Byte} (h : (s.msgList f).Carries xs)
    (hg : ioqueueGetData f count s = .ok (r, t)) :
    ∃ ys, xs = r ++ ys ∧ r.length = count.toNat ∧ (t.msgList f).Carries ys := by
  obtain ⟨_, _, hs, hg⟩ := bind_eq_ok.mp hg
  cases hs
  obtain ⟨_, _, hc, hg⟩ := bind_eq_ok.mp hg
  obtain ⟨hlen, rfl⟩ := check_eq_ok.mp hc
  cases hg
  rw [setMsgList_self]
  refine (h.getPass_cases count.isLt).elim (fun he => ?_) fun ⟨ys, zs, hx, hy, h₁, h₂, _⟩ => ?_
  · rw [he] at hlen ⊢
    exact ⟨xs, rfl, hlen, h⟩
  · rw [h₁]
    exact ⟨zs, hx, hy, h₂⟩

/-- The package in front of a queue is received. -/
theorem receivePacket_front (h : (s.msgList f).Carries (p.bytes ++ ys))
    (hp : p.size.toNat = p.data.length) (hlt : p.data.length ≤ 1024) :
    ∃ q, receivePacket f s = .ok (p, s.setMsgList f q) ∧ q.Carries ys := by
  rw [Package.bytes, List.append_assoc, List.append_assoc] at h
  obtain ⟨q₁, h₁, hq₁⟩ := @get_front _ _ _ _ 4 h (length_le32 _)
  rw [← List.append_assoc] at hq₁
  have hlen : (le32 p.source ++ p.data).length = (p.size + 8 - 4).toNat := by
    rw [List.length_append, length_le32, BitVec.toNat_sub, BitVec.toNat_add, hp]
    change 4 + p.data.length = (2 ^ 32 - 4 + (p.data.length + 8) % 2 ^ 32) % 2 ^ 32
    omega
  rw [← setMsgList_self (s := s) (f := f) q₁] at hq₁
  obtain ⟨q₂, h₂, hq₂⟩ := get_front hq₁ hlen
  refine ⟨q₂, ?_, hq₂⟩
  unfold receivePacket
  rw [bind_ok h₁, word_le32, bind_ok h₂, setMsgList_twice, word_le32_append,
    List.drop_left' (length_le32 _)]
  rfl

/-- A package whose size is the number of its bytes. -/
theorem pack_size (size : BitVec 32) (source : Addr) (data : Nat → Byte) :
    (pack size source data).size.toNat = (pack size source data).data.length := by
  simp [pack]

end Lemmas

end Frog.PackageFs
