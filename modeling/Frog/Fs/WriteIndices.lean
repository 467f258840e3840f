import Frog.Fs.FileWrite

/-!
# The indices of a write

The zones that `file_write` fills lie between the position and the end that the clamp leaves. The
position behind the last full zone is an index of its own, one past the array when that zone is the
last.
-/

namespace Frog.Fs

set_option autoImplicit false
open Bytes Prog Noted

/-! ## The indices that are used -/

structure InRange (k : Notes) : Prop where
  zones : ∀ i ∈ k.zoneUses, 0 ≤ i ∧ i < 140
  table : ∀ i ∈ k.tableUses, 0 ≤ i ∧ i < 128

/-- No index of the call is out of range, and it ends at the end of a file at the latest. -/
def StaysInRange (s : State) (g : Nat) (buf : Store) (writeLen : Nat) : Prop :=
  InRange (notes (Noted.fileWrite g buf writeLen (s, .start))) ∧
    (s.fileTable g).fdPos + writeCount (s.fileTable g).fdPos writeLen ≤ maxFileSize

/-- What the use of a zone index in `zs` or a table index in `ts` does not end. -/
structure Stable (zs ts : Int → Prop) (P : Notes → Prop) : Prop where
  zone : ∀ k is, (∀ i ∈ is, zs i) → P k → P { k with zoneUses := k.zoneUses ++ is }
  table : ∀ k i, ts i → P k → P { k with tableUses := k.tableUses ++ [i] }
  live : ∀ k n, P k → P { k with live := n }

section Keeps
variable {zs ts : Int → Prop} {P : Notes → Prop}

theorem Stable.freed (h : Stable zs ts P) : Keeps P Fs.freed := .note fun k => h.live k _

theorem Stable.allocate (h : Stable zs ts P) (size : Nat) : Keeps P (Fs.allocate size) := by
  refine (Keeps.watch _).bind fun ok => (Keeps.note fun k hk => ?_).bind fun _ => .pure ok
  split
  · exact h.live k _ hk
  · exact hk

theorem Stable.writeZone (h : Stable zs ts P) (g : Nat) (buf : Store) (chunkRest lba : Nat)
    (isLastTurn : Bool) (w : Nat) : Keeps P (Noted.writeZone g buf chunkRest lba isLastTurn w) := by
  refine .ite (fun _ => (h.allocate 512).bind fun ok => .ite (fun _ => ?_) fun _ => .pure none)
    fun _ => ?_
  · exact (Keeps.watch _).bind fun _ => (Keeps.watch _).bind fun _ => h.freed.bind fun _ => .pure _
  · exact (Keeps.watch _).bind fun _ => (Keeps.watch _).bind fun _ => .pure _

theorem Stable.rewriteZone (h : Stable zs ts P) (g : Nat) (buf : Store) (chunkRest lba : Nat)
    (isLastTurn : Bool) (w : Nat) :
    Keeps P (Noted.rewriteZone g buf chunkRest lba isLastTurn w) := by
  refine .ite (fun _ => (h.allocate 512).bind fun ok => .ite (fun _ => ?_) fun _ => .pure none)
    fun _ => ?_
  · exact (Keeps.watch _).bind fun _ => (Keeps.watch _).bind fun _ => (Keeps.watch _).bind fun _ =>
      h.freed.bind fun _ => .pure _
  · exact (Keeps.watch _).bind fun _ => (Keeps.watch _).bind fun _ => (Keeps.watch _).bind fun _ =>
      .pure _

theorem Stable.recordIndirect (h : Stable zs ts P) {p idx lba : Nat} (hi : ts (idx - 12)) :
    Keeps P (Noted.recordIndirect p idx lba) := by
  refine (h.allocate 512).bind fun ok => .ite (fun _ => ?_) fun _ => .pure false
  refine (Keeps.watch _).bind fun _ => (Keeps.watch _).bind fun _ =>
    (Keeps.note fun k hk => ?_).bind fun _ => (Keeps.watch _).bind fun _ =>
      (Keeps.watch _).bind fun _ => h.freed.bind fun _ => .pure true
  exact h.table k _ hi hk

theorem Stable.appendZone (h : Stable zs ts P) {p idx : Nat} (hi : 12 ≤ idx → ts (idx - 12)) :
    Keeps P (Noted.appendZone p idx) := by
  have hrecord : ∀ lba, 12 ≤ idx → Keeps P
      (do if ← Noted.recordIndirect p idx lba then pure (some lba) else pure none) := fun lba hle =>
    (h.recordIndirect (hi hle)).bind fun _ => .ite (fun _ => .pure _) fun _ => .pure none
  refine (Keeps.watch _).bind fun r => ?_
  cases r with
  | none => exact h.freed.bind fun _ => .pure none
  | some lba =>
    refine .ite (fun _ => ?_) fun hge => .ite (fun he => ?_) fun _ => hrecord lba (by omega)
    · exact (Keeps.watch _).bind fun _ => (Keeps.watch _).bind fun _ => .pure _
    · refine (Keeps.watch _).bind fun _ => (Keeps.watch _).bind fun _ =>
        (Keeps.watch _).bind fun r => ?_
      cases r with
      | none => exact h.freed.bind fun _ => .pure none
      | some lba => exact hrecord lba (by omega)

/-- The loop uses the indices of its chunks. -/
theorem Stable.writeChunks (h : Stable zs ts P) {g p : Nat} {buf : Store} {zones : Nat → Nat}
    {plan : WritePlan} {count left : Nat} : ∀ {i w},
    (∀ j, i ≤ j → j < i + left → zs (plan.zoneIdx + j)) →
    (∀ j, i ≤ j → j < i + left → 12 ≤ plan.zoneIdx + j → ts (plan.zoneIdx + j - 12)) →
    Keeps P (Noted.writeChunks g p buf zones plan count left i w) := by
  induction left with
  | zero => exact fun _ _ => .pure _
  | succ left ih =>
    intro i w hz ht
    have hidx : zs ↑(plan.zoneIdx + i) := by
      rw [Nat.cast_add]
      exact hz i le_rfl (by omega)
    refine (Keeps.note fun k hk => h.zone k _ (by simpa using hidx) hk).bind fun _ =>
      .ite_bind (fun _ => h.appendZone fun hle => ?_) (fun _ => .pure _) fun lba => ?_
    · rw [Nat.cast_add]
      exact ht i le_rfl (by omega) (by omega)
    · cases lba with
      | none => exact .pure none
      | some lba =>
        refine (Keeps.watch _).bind fun _ => Keeps.bind ?_ fun done => ?_
        · split
          · exact h.writeZone g buf _ lba _ w
          · exact h.rewriteZone g buf _ lba _ w
        · cases done with
          | none => exact .pure none
          | some n =>
            exact ih (fun j hj hl => hz j (by omega) (by omega))
              fun j hj hl => ht j (by omega) (by omega)

theorem Stable.fillRest (h : Stable zs ts P) {g : Nat} {buf : Store} {zones : Nat → Nat}
    {plan : WritePlan} (hz : plan.restSz ≠ 0 → zs (plan.zoneIdx - 1)) :
    Keeps P (Noted.fillRest g buf zones plan) := by
  refine .ite (fun _ => .pure ()) fun hr => (Keeps.watch _).bind fun _ =>
    (Keeps.note fun k hk => h.zone k _ (by simpa using hz hr) hk).bind fun _ =>
      (Keeps.watch _).bind fun _ => (Keeps.watch _).bind fun _ => .watch _

/-- What holds of the notes once the first zone is found holds of them at the end. -/
theorem Stable.writeFrom (h : Stable zs ts P) {g p : Nat} {buf : Store} {zones : Nat → Nat}
    {x : Inode} {pos count : Nat} {plan : WritePlan} {s : State} {k : Notes}
    (hplan : writePlan pos x.iSize count zones = plan)
    (hk : P { k with zoneUses := k.zoneUses ++ planUses pos x.iSize zones })
    (hrest : plan.restSz ≠ 0 → zs (plan.zoneIdx - 1))
    (hz : ∀ j < plan.chunkCnt, zs (plan.zoneIdx + j))
    (ht : ∀ j < plan.chunkCnt, 12 ≤ plan.zoneIdx + j → ts (plan.zoneIdx + j - 12)) :
    P (notes (Noted.writeFrom g p buf zones x pos count (s, k))) := by
  subst hplan
  refine notes_of_wp (((h.fillRest hrest).bind fun _ => (h.writeChunks (fun j _ hj => hz j (by omega))
      fun j _ hj => ht j (by omega)).bind fun r => ?_) s _ hk)
  cases r with
  | none => exact .pure none
  | some written =>
    exact (Keeps.watch _).bind fun _ => (Keeps.watch _).bind fun _ => (Keeps.watch _).bind fun _ =>
      (Keeps.watch _).bind fun _ => h.freed.bind fun _ => .pure _

end Keeps

/-! ## Where the zones of a write lie -/

section Plan
variable {pos size count : Nat} {zones : Nat → Nat}

theorem divRoundUp_eq {n : Nat} (h : n + 511 < 2 ^ 32) : divRoundUp n 512 = (n + 511) / 512 := by
  rw [divRoundUp, u32_of_lt h]

theorem firstZero_eq {k : Nat} (hk : k < 140) (h0 : zones k = 0) (h : ∀ j < k, zones j ≠ 0) :
    firstZero zones = k := by
  have hfind : ((List.range 140).find? fun k => decide (zones k = 0)) = some k := by
    rw [List.find?_range_eq_some]
    exact ⟨by simpa using h0, by simpa using hk, fun j hj => by simpa using h j hj⟩
  rw [firstZero, hfind]
  rfl

/-- A write begins at the zone behind its position and ends in the last zone. -/
theorem writePlan_bounds (hz : ∀ k, 512 * k < size → zones k ≠ 0) (hc : pos + count ≤ maxFileSize)
    (hend : pos = size → pos ≤ 512 * 139) :
    (writePlan pos size count zones).zoneIdx = (pos + 511) / 512 ∧
      (writePlan pos size count zones).restSz = pos % 512 ∧
      (pos + 511) / 512 + (writePlan pos size count zones).chunkCnt ≤ 140 := by
  unfold maxFileSize at hc
  have hidx : divRoundUp pos 512 = (pos + 511) / 512 := divRoundUp_eq (by omega)
  have hfirst : pos = size ∧ zones ((pos + 511) / 512) = 0 →
      firstZero zones = (pos + 511) / 512 := by
    rintro ⟨he, h0⟩
    refine firstZero_eq ?_ h0 fun j hj => hz j ?_ <;> omega
  have hzone : (writePlan pos size count zones).zoneIdx = (pos + 511) / 512 := by
    simp only [writePlan, hidx]
    split
    · exact hfirst ‹_›
    · rfl
  have hrest : (writePlan pos size count zones).restSz = pos % 512 := by
    simp only [writePlan, hidx]
    split
    · rename_i h
      rw [h.1]
    · rfl
  refine ⟨hzone, hrest, ?_⟩
  have hcnt : (writePlan pos size count zones).chunkCnt =
      if pos % 512 = 0 then divRoundUp count 512
      else if count ≤ 512 - pos % 512 then 0
      else divRoundUp (count - min count (512 - pos % 512)) 512 := by
    rw [← hrest]
    simp only [writePlan]
    split <;> simp_all
  rw [hcnt]
  split
  · rw [divRoundUp_eq (by omega)]
    omega
  · split
    · omega
    · rw [divRoundUp_eq (by omega)]
      omega

theorem planUses_bounds (hz : ∀ k, 512 * k < size → zones k ≠ 0) (hpos : pos ≤ maxFileSize)
    (hend : pos = size → pos ≤ 512 * 139) :
    ∀ i ∈ planUses pos size zones, 0 ≤ i ∧ i < 140 := by
  unfold maxFileSize at hpos
  have hidx : divRoundUp pos 512 = (pos + 511) / 512 := divRoundUp_eq (by omega)
  intro i hi
  simp only [planUses, hidx] at hi
  split at hi
  · rename_i he
    have hlast := hend he
    rcases List.mem_cons.mp hi with rfl | hi
    · omega
    · split at hi
      · rename_i h0
        have hfirst : firstZero zones = (pos + 511) / 512 :=
          firstZero_eq (by omega) h0 fun j hj => hz j (by omega)
        obtain ⟨j, hj, rfl⟩ := List.mem_map.mp hi
        rw [List.mem_range, hfirst] at hj
        omega
      · cases hi
  · cases hi

/-- At the end of a file that reaches into the last zone, the index behind it is used. -/
theorem planUses_past (hsize : pos = size) (hlast : 512 * 139 < pos) (hpos : pos ≤ maxFileSize) :
    140 ∈ planUses pos size zones := by
  unfold maxFileSize at hpos
  have hidx : divRoundUp pos 512 = (pos + 511) / 512 := divRoundUp_eq (by omega)
  have h140 : (pos + 511) / 512 = 140 := by omega
  simp only [planUses, hidx, h140, if_pos hsize]
  exact List.mem_cons_self

end Plan

/-! ## The condition -/

section Range
variable {s : State} {g p writeLen : Nat} {x : Inode} {buf : Store}

theorem inRange_stable :
    Stable (fun i => 0 ≤ i ∧ i < 140) (fun i => 0 ≤ i ∧ i < 128) InRange where
  zone k is his hk := ⟨fun i hi => (List.mem_append.mp hi).elim (hk.zones i) (his i), hk.table⟩
  table k i hi hk := by
    refine ⟨hk.zones, fun j hj => ?_⟩
    rcases List.mem_append.mp hj with h | h
    · exact hk.table j h
    · rwa [List.mem_singleton.mp h]
  live _ _ hk := ⟨hk.zones, hk.table⟩

theorem used_stable (i : Int) :
    Stable (fun _ => True) (fun _ => True) fun k => i ∈ k.zoneUses where
  zone _ _ _ hk := List.mem_append_left _ hk
  table _ _ _ hk := hk
  live _ _ hk := hk

theorem FileOk.zonesOf_ne (hf : FileOk s.disk x) {k : Nat} (hk : 512 * k < x.iSize) :
    zonesOf s x k ≠ 0 := by
  rw [zonesOf, hf.fileZones_eq _ hk]
  exact (hf.zone k hk).1

/-- A file that reaches into the last zone has an indirect table. -/
theorem FileOk.table_ne (hf : FileOk s.disk x) (hk : 512 * 139 < x.iSize) : x.iZones 12 ≠ 0 := by
  intro h12
  refine (hf.zone 139 hk).1 ?_
  rw [zoneOf, zoneArray, tableOf, if_pos h12, if_neg (by omega), if_pos (by omega)]
  exact le32_zero fun _ _ => rfl

theorem writeCount_le (hpos : (s.fileTable g).fdPos ≤ maxFileSize) (hlen : writeLen < 2 ^ 32) :
    (s.fileTable g).fdPos + writeCount (s.fileTable g).fdPos writeLen ≤ maxFileSize ↔
      (s.fileTable g).fdPos + writeLen < 2 ^ 32 := by
  unfold writeCount u32
  unfold maxFileSize at *
  split <;> omega

/-- The indices of a write are in range and its end is at the clamp, at the latest, unless the sum
of position and length wraps or the file ends in its last zone and the write starts there. -/
theorem staysInRange_iff (ho : OpenAt s g p x) (hf : FileOk s.disk x)
    (hpos : (s.fileTable g).fdPos ≤ maxFileSize) (hlen : writeLen < 2 ^ 32)
    (hm : s.env.malloc 0 = true) : StaysInRange s g buf writeLen ↔
      (s.fileTable g).fdPos + writeLen < 2 ^ 32 ∧
        ¬ ((s.fileTable g).fdPos = x.iSize ∧ 512 * 139 < x.iSize ∧ s.env.malloc 1 = true) := by
  rw [StaysInRange, writeCount_le hpos hlen, and_comm]
  refine and_congr_right fun hsum => ?_
  have hz : ∀ k, 512 * k < x.iSize → zonesOf s x k ≠ 0 := fun k => hf.zonesOf_ne
  by_cases ht : x.iZones 12 ≠ 0 → s.env.malloc 1 = true
  · rw [fileWrite_eq_from ho hf.table hpos hm ht]
    constructor
    · rintro hr ⟨he, hlast, -⟩
      have huse : (140 : Int) ∈ planUses (s.fileTable g).fdPos x.iSize (zonesOf s x) :=
        planUses_past he (he ▸ hlast) hpos
      have hused : (140 : Int) ∈ (notes (Noted.writeFrom g p buf (zonesOf s x) x (s.fileTable g).fdPos
          (writeCount (s.fileTable g).fdPos writeLen) (prepared s x, ⟨[], [], 1⟩))).zoneUses :=
        (used_stable 140).writeFrom rfl huse (fun _ => trivial) (fun _ _ => trivial)
          fun _ _ _ => trivial
      exact absurd (hr.zones 140 hused).2 (by omega)
    · intro hcond
      have hend : (s.fileTable g).fdPos = x.iSize → (s.fileTable g).fdPos ≤ 512 * 139 := by
        intro he
        by_contra hlt
        have hlast : 512 * 139 < x.iSize := by omega
        exact hcond ⟨he, hlast, ht (hf.table_ne hlast)⟩
      obtain ⟨hidx, hrest, hcnt⟩ := writePlan_bounds hz ((writeCount_le hpos hlen).mpr hsum) hend
      have hmax : (s.fileTable g).fdPos ≤ 512 * 140 := hpos
      refine inRange_stable.writeFrom rfl ⟨planUses_bounds hz hpos hend, nofun⟩ ?_ ?_ ?_
      · rw [hidx, hrest]
        omega
      · intro j hj
        omega
      · intro j hj
        omega
  · push Not at ht
    have hfalse : s.env.malloc 1 = false := by simpa using ht.2
    rw [fileWrite_noTable ho hpos hm ht.1 hfalse]
    refine iff_of_true ⟨nofun, nofun⟩ ?_
    rw [hfalse]
    simp

theorem staysInRange_sector : StaysInRange oneByte 3 (fun _ => 0) 512 := by
  refine (staysInRange_iff oneByte_open oneByte_ok (by decide) (by decide) rfl).mpr ⟨by decide, ?_⟩
  rintro ⟨-, hlast, -⟩
  exact absurd hlast (by decide)

/-- The sum of position and length is zero, and nothing is cut off. -/
theorem wraps_past_clamp : OpenAt oneByte 3 1 oneByteInode ∧ FileOk oneByte.disk oneByteInode ∧
    oneByte.env.malloc 0 = true ∧ ¬ StaysInRange oneByte 3 (fun _ => 0) (2 ^ 32 - 1) := by
  refine ⟨oneByte_open, oneByte_ok, rfl, fun h => ?_⟩
  have hend : ¬ (oneByte.fileTable 3).fdPos +
      writeCount (oneByte.fileTable 3).fdPos (2 ^ 32 - 1) ≤ maxFileSize := by decide
  exact hend h.2

end Range

end Frog.Fs
