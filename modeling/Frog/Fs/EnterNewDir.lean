import Frog.Fs.DirAdd
import Frog.Fs.Walk

/-!
# Making a directory under its parent

`sys_mkdir` from the allocation of an inode on. The zone of the new directory is marked on the disk
before the entry is flushed, and a failure clears its bit in memory only.
-/

namespace Frog.Fs

set_option autoImplicit false
open Bytes Prog

/-! ## In the parent directory -/

/-- `makeDir` with an inode and a zone, up to its `dir_close`. -/
def enterZone (pdir : Nat) (lastName : Name) (junk : Store) (inodeNr lba : Nat) : M Bool := do
  let s ← get
  let idx := u32Sub lba s.sb.sDataStartLba
  check (idx ≠ 0) .panic
  flushBitmap .zoneBitmap idx
  let q ← dirInode pdir
  let y ← inodeAt q
  ideWrite lba (dotsSector inodeNr y.iNum) 1
  let entry ← newDirEntry lastName inodeNr .directory
  if ← flushDirEntry pdir entry then
    let y ← inodeAt q
    flushInode y
    flushInode (newDirInode inodeNr lba junk)
    flushBitmap .inodeBitmap inodeNr
    pure true
  else
    setBit .zoneBitmap idx false
    setBit .inodeBitmap inodeNr false
    pure false

def enterNewDir (pdir : Nat) (lastName : Name) : M Bool := do
  let junk ← readJunk
  match ← inodeBitmapAlloc with
  | none => pure false
  | some inodeNr =>
    match ← zoneBitmapAlloc with
    | none =>
      setBit .inodeBitmap inodeNr false
      pure false
    | some lba => enterZone pdir lastName junk inodeNr lba

theorem makeDir_closes (pdir : Nat) (lastName : Name) :
    makeDir pdir lastName = (do
      let r ← enterNewDir pdir lastName
      dirClose pdir
      pure r : M Bool) := by
  unfold makeDir enterNewDir
  simp only [bind_assoc]
  congr with junk
  congr with nr
  cases nr with
  | none => rfl
  | some nr =>
    simp only [bind_assoc]
    congr with lba
    cases lba with
    | none =>
      simp only [bind_assoc]
      rfl
    | some lba =>
      unfold enterZone
      simp only [bind_assoc]
      congr with s
      congr with _
      congr with _
      congr with q
      congr with y
      congr with _
      congr with entry
      congr with r
      cases r <;> simp only [Bool.false_eq_true, if_true, if_false, bind_assoc] <;> rfl

/-! ## A new entry that finds no room -/

section Room
variable {E : Stop → Prop} {s t : State} {d p : Nat} {x : Inode} {e : DirEntry} {zs : Nat → Nat}

/-- The zones of a directory and its table are data sectors in use. -/
structure HoldsZones (s : State) (x : Inode) : Prop where
  used : ZonesUsed s x
  data : ∀ k, zoneOf s.disk x k ≠ 0 → InData s.sb (zoneOf s.disk x k)
  table : x.iZones 12 ≠ 0 → InData s.sb (x.iZones 12)

theorem HoldsZones.flushOk (h : HoldsZones s x) (hl : Layout s.sb) (hm : ZoneMapOk s)
    (hx : s.inodes p = some x) : FlushOk s p x (zoneOf s.disk x) where
  layout := hl
  map := hm
  inode := hx
  data := h.data
  used := h.used.zone
  direct k hk hz := by
    rw [← @zoneOf_direct s.disk _ _ hk] at hz ⊢
    exact ⟨(h.data k hz).1, h.used.zone k hz⟩

theorem HoldsZones.table_le (h : HoldsZones s x) : x.iZones 12 ≤ maxLba := by
  by_cases hz : x.iZones 12 = 0
  · omega
  · exact (h.table hz).2.1

theorem wp_flushDirEntry_at {Q : Bool → State → Prop} (hd : DirAt s d p x)
    (ht : x.iZones 12 ≤ maxLba) :
    wp E (flushDirEntry d e) Q s ↔ wp E (flushZones p e (zoneOf s.disk x) 140 0) Q s := by
  unfold flushDirEntry
  rw [wp_bind, wp_of_ok (dirInode_some hd.1), wp_bind, wp_of_ok (inodeAt_some hd.2), wp_bind,
    wp_readTable ht]
  rfl

/-- A zone is there and holds no free entry. -/
def FullZone (disk : Store) (lba : Nat) : Prop :=
  lba ≠ 0 ∧ freeSlot (sectorAt disk lba) = none

/-- A scan that succeeds has met a zone that is not full. One that fails has met full zones only, or has
taken a zone for good. -/
theorem wp_flushZones_ends {left : Nat} :
    ∀ {s : State} {x : Inode} {i : Nat}, FlushOk s p x zs →
      wp (fun _ => True) (flushZones p e zs left i) (fun r t =>
        (r = true → ∃ k, i ≤ k ∧ k < i + left ∧ ¬ FullZone s.disk (zs k)) ∧
          (r = false → (∀ b, s.zoneBitmap.getValue b = true → t.zoneBitmap.getValue b = true) ∧
            ((∀ k, i ≤ k → k < i + left → FullZone s.disk (zs k)) ∧ t = s ∨
              (∃ k, i ≤ k ∧ k < i + left ∧ zs k = 0) ∧
                ∃ b, s.zoneBitmap.getValue b = false ∧ t.zoneBitmap.getValue b = true))) s := by
  induction left with
  | zero =>
    intro s x i _
    exact ⟨nofun, fun _ => ⟨fun b hb => hb, .inl ⟨fun k h1 h2 => by omega, rfl⟩⟩⟩
  | succ left ih =>
    intro s x i hok
    by_cases hz : zs i = 0
    · rw [wp_flushZones_missing hok hz]
      refine ⟨fun idx hf => wp_mono (ih (hok.took i idx)) ?_, fun _ => trivial⟩
      intro r t hrun
      refine ⟨fun _ => ⟨i, le_rfl, by omega, fun hfull => hfull.1 hz⟩, fun hr => ?_⟩
      obtain ⟨hmono, -⟩ := hrun.2 hr
      refine ⟨fun b hb => hmono b ?_, .inr ⟨⟨i, Nat.le_refl i, by omega, hz⟩, idx,
        (Bitmap.findBlock_one hf).2.1, hmono idx (Bitmap.getValue_setValue_self _ _ _)⟩⟩
      show (s.zoneBitmap.setValue idx true).getValue b = true
      rw [Bitmap.getValue_setValue]
      split
      · rfl
      · exact hb
    · rw [wp_flushZones_alloc hok.inode (hok.zone_le i) hz]
      cases hfree : freeSlot (sectorAt s.disk (zs i)) with
      | some slot =>
        have hroom : ¬ FullZone s.disk (zs i) := fun hfull => by
          cases hfree.symm.trans hfull.2
        exact ⟨fun _ => ⟨i, le_rfl, by omega, hroom⟩, nofun⟩
      | none =>
        refine wp_mono (ih hok) fun r t hrun => ⟨fun hr => ?_, fun hr => ?_⟩
        · obtain ⟨k, h1, h2, hk⟩ := hrun.1 hr
          exact ⟨k, by omega, by omega, hk⟩
        · obtain ⟨hmono, hrest⟩ := hrun.2 hr
          refine ⟨hmono, ?_⟩
          rcases hrest with ⟨hall, rfl⟩ | ⟨⟨k, h1, h2, hk⟩, hb⟩
          · refine .inl ⟨fun k h1 h2 => ?_, rfl⟩
            by_cases hki : k = i
            · exact hki ▸ ⟨hz, hfree⟩
            · exact hall k (by omega) (by omega)
          · exact .inr ⟨⟨k, by omega, by omega, hk⟩, hb⟩

end Room

/-! ## The attempt -/

/-- Both bitmaps and the inode table on the disk, and the data sectors in use, are as before. -/
structure SameSectors (s t : State) : Prop where
  front : ∀ lba, lba < s.sb.sDataStartLba → sectorAt t.disk lba = sectorAt s.disk lba
  used : ∀ lba, s.sb.sDataStartLba ≤ lba →
    s.zoneBitmap.getValue (lba - s.sb.sDataStartLba) = true →
      sectorAt t.disk lba = sectorAt s.disk lba

/-- Everything but the disk and the outside. -/
def State.sansDisk (s : State) : State := { s.sansEnv with disk := State.boot.disk }

/-- If there are an inode and a zone to be had, then no zone of the directory is missing and the
disk has the zone marked as used already. -/
def MarkedBefore (s : State) (x : Inode) : Prop :=
  ∀ i idx, s.inodeBitmap.findBlock 1 = some i → s.zoneBitmap.findBlock 1 = some idx →
    (∀ k, k < 140 → zoneOf s.disk x k ≠ 0) ∧ (s.tookZone idx).disk = s.disk

section Attempt
variable {E : Stop → Prop} {s t : State} {d p i idx : Nat} {x : Inode} {name : Name}

theorem wp_inodeBitmapAlloc {Q : Option Nat → State → Prop} :
    wp E inodeBitmapAlloc Q s ↔
      (∀ i, s.inodeBitmap.findBlock 1 = some i →
        Q (some i) (s.setInodeMap (s.inodeBitmap.setValue i true))) ∧
        (s.inodeBitmap.findBlock 1 = none → Q none s) := by
  cases hf : s.inodeBitmap.findBlock 1 with
  | none => simp [inodeBitmapAlloc, hf]
  | some i =>
    have hlt := (Bitmap.findBlock_one hf).1
    simp [inodeBitmapAlloc, hf, hlt]

theorem wp_zoneBitmapAlloc {Q : Option Nat → State → Prop} (hm : ZoneMapOk s) :
    wp E zoneBitmapAlloc Q s ↔
      (∀ idx, s.zoneBitmap.findBlock 1 = some idx →
        Q (some (s.sb.sDataStartLba + idx)) (s.setZoneMap (s.zoneBitmap.setValue idx true))) ∧
        (s.zoneBitmap.findBlock 1 = none → Q none s) := by
  cases hf : s.zoneBitmap.findBlock 1 with
  | none => simp [zoneBitmapAlloc, hf]
  | some idx =>
    obtain ⟨hlt, hclear, -⟩ := Bitmap.findBlock_one hf
    have hlen := hm.len
    have hpad := hm.pad idx (by omega) hclear
    have hmax : maxLba = 163839 := rfl
    have hu : orMinusOne (u32 (s.sb.sDataStartLba + idx)) = some (s.sb.sDataStartLba + idx) := by
      rw [u32_of_lt (by omega)]
      exact if_neg (by omega)
    simp [zoneBitmapAlloc, hf, hlt, hu]

/-- The state in which the entry is flushed. -/
def State.entering (s : State) (i idx : Nat) (dots : Store) : State :=
  let u := (s.nextJunk.setInodeMap (s.inodeBitmap.setValue i true)).tookZone idx
  u.setDisk (patch u.disk (512 * (s.sb.sDataStartLba + idx)) 512 dots)

section Entering
variable {dots : Store}

theorem entering_front {lba : Nat} (h : lba < s.sb.sDataStartLba) :
    sectorAt (s.entering i idx dots).disk lba = sectorAt (s.tookZone idx).disk lba :=
  sectorAt_patch_out (by omega)

theorem entering_data (hl : Layout s.sb) (hi : idx < 4096 * s.sb.sZmapSz) {lba : Nat}
    (h : s.sb.sDataStartLba ≤ lba) (hne : lba ≠ s.sb.sDataStartLba + idx) :
    sectorAt (s.entering i idx dots).disk lba = sectorAt s.disk lba := by
  have hd := hl.bounds
  calc sectorAt (s.entering i idx dots).disk lba = sectorAt (s.tookZone idx).disk lba :=
        sectorAt_patch_out (by omega)
    _ = sectorAt s.disk lba := tookZone_sector hl hi (by omega)

/-- A sector in use is not the one that is taken. -/
theorem entering_used (hl : Layout s.sb) (hm : ZoneMapOk s)
    (hf : s.zoneBitmap.findBlock 1 = some idx) {lba : Nat} (h : s.sb.sDataStartLba ≤ lba)
    (hu : s.zoneBitmap.getValue (lba - s.sb.sDataStartLba) = true) :
    sectorAt (s.entering i idx dots).disk lba = sectorAt s.disk lba := by
  obtain ⟨hlt, hclear, -⟩ := Bitmap.findBlock_one hf
  have hlen := hm.len
  refine entering_data hl (by omega) h fun heq => ?_
  rw [heq, Nat.add_sub_cancel_left, hclear] at hu
  cases hu

theorem entering_map (hm : ZoneMapOk s) : ZoneMapOk (s.entering i idx dots) where
  len := hm.len
  pad b hb hc := by
    refine hm.pad b hb ?_
    have hc : (s.zoneBitmap.setValue idx true).getValue b = false := hc
    rw [Bitmap.getValue_setValue] at hc
    split at hc
    · cases hc
    · exact hc

theorem HoldsZones.entering (h : HoldsZones s x) (hl : Layout s.sb) (hm : ZoneMapOk s)
    (hf : s.zoneBitmap.findBlock 1 = some idx) :
    (∀ k, zoneOf (s.entering i idx dots).disk x k = zoneOf s.disk x k) ∧
      HoldsZones (s.entering i idx dots) x := by
  have hzone : ∀ k, zoneOf (s.entering i idx dots).disk x k = zoneOf s.disk x k :=
    zoneOf_congr (fun _ _ => rfl) fun hz =>
      entering_used hl hm hf (h.table hz).1 (h.used.table hz)
  have hset : ∀ b, s.zoneBitmap.getValue b = true →
      (s.entering i idx dots).zoneBitmap.getValue b = true := by
    intro b hb
    show (s.zoneBitmap.setValue idx true).getValue b = true
    rw [Bitmap.getValue_setValue]
    split
    · rfl
    · exact hb
  refine ⟨hzone, ⟨⟨fun k hk => ?_, fun hz => hset _ (h.used.table hz)⟩, fun k hk => ?_, h.table⟩⟩
  · rw [hzone] at hk ⊢
    exact hset _ (h.used.zone k hk)
  · rw [hzone] at hk ⊢
    exact h.data k hk

end Entering

/-- Nothing has changed but sectors that are not in use. -/
structure Restored (s t : State) : Prop where
  rest : t.sansDisk = s.sansDisk
  sectors : SameSectors s t

/-- A bitmap has changed, in memory or on the disk. -/
def MapsChanged (s t : State) : Prop :=
  t.zoneBitmap ≠ s.zoneBitmap ∨
    ∃ lba, lba < s.sb.sDataStartLba ∧ sectorAt t.disk lba ≠ sectorAt s.disk lba

theorem sansDisk_sameSectors (h : OnlyEnv s t) : Restored s t where
  rest := by
    have he : t.sansEnv = s.sansEnv := h
    unfold State.sansDisk
    rw [he]
  sectors := by
    rw [h.eq]
    exact ⟨fun _ _ => rfl, fun _ _ _ => rfl⟩

theorem not_marked_of_missing (hi : s.inodeBitmap.findBlock 1 = some i)
    (hidx : s.zoneBitmap.findBlock 1 = some idx) {k : Nat} (hk : k < 140)
    (hz : zoneOf s.disk x k = 0) : ¬ MarkedBefore s x :=
  fun h => (h i idx hi hidx).1 k hk hz

/-- The flush before the entry decides. -/
theorem marked_iff_front (hi : s.inodeBitmap.findBlock 1 = some i)
    (hidx : s.zoneBitmap.findBlock 1 = some idx) (hl : Layout s.sb) (hm : ZoneMapOk s)
    (hall : ∀ k, k < 140 → zoneOf s.disk x k ≠ 0) :
    MarkedBefore s x ↔ ∀ lba, lba < s.sb.sDataStartLba →
      sectorAt (s.tookZone idx).disk lba = sectorAt s.disk lba := by
  have hlt := (Bitmap.findBlock_one hidx).1
  have hlen := hm.len
  have hd := hl.bounds
  simp only [SuperBlock.mapLba, SuperBlock.mapSz] at hd
  constructor
  · intro h lba _
    rw [(h i idx hi hidx).2]
  · intro h i' idx' _ hidx'
    cases hidx.symm.trans hidx'
    refine ⟨hall, funext fun a => ?_⟩
    by_cases ha : 512 * (s.sb.sZmapLba + idx / 4096) ≤ a ∧
        a < 512 * (s.sb.sZmapLba + idx / 4096) + 512
    · have hsec := congrFun (h (s.sb.sZmapLba + idx / 4096) (by omega))
        (a - 512 * (s.sb.sZmapLba + idx / 4096))
      rw [sectorAt_apply (by omega), sectorAt_apply (by omega),
        show 512 * (s.sb.sZmapLba + idx / 4096) + (a - 512 * (s.sb.sZmapLba + idx / 4096)) = a by
          omega] at hsec
      exact hsec
    · have hout : a < 512 * (s.sb.sZmapLba + idx / 4096) ∨
          512 * (s.sb.sZmapLba + idx / 4096) + 512 ≤ a := by omega
      simp only [flushedMap, SuperBlock.mapLba]
      exact patch_out hout

/-- The bits that were set for the new directory are cleared again. -/
theorem restored_entering (hl : Layout s.sb) (hm : ZoneMapOk s) {dots : Store}
    (hi : s.inodeBitmap.findBlock 1 = some i) (hidx : s.zoneBitmap.findBlock 1 = some idx)
    (hfront : ∀ lba, lba < s.sb.sDataStartLba →
      sectorAt (s.tookZone idx).disk lba = sectorAt s.disk lba) :
    Restored s (((s.entering i idx dots).setZoneMap
      ((s.zoneBitmap.setValue idx true).setValue idx false)).setInodeMap
        ((s.inodeBitmap.setValue i true).setValue i false)) := by
  rw [Bitmap.setValue_undo (Bitmap.findBlock_one hi).2.1,
    Bitmap.setValue_undo (Bitmap.findBlock_one hidx).2.1]
  refine ⟨rfl, ⟨fun lba h => ?_, fun lba h hu => entering_used hl hm hidx h hu⟩⟩
  exact (entering_front h).trans (hfront lba h)

theorem wp_flushDirEntry_entering (hl : Layout s.sb) (hm : ZoneMapOk s) (hd : DirAt s d p x)
    (hz : HoldsZones s x) (hidx : s.zoneBitmap.findBlock 1 = some idx) {dots : Store}
    {e : DirEntry} :
    wp (fun _ => True) (flushDirEntry d e) (fun r t => r = false →
      (∀ k, k < 140 → zoneOf s.disk x k ≠ 0) ∧ t = s.entering i idx dots ∨
        (∃ k, k < 140 ∧ zoneOf s.disk x k = 0) ∧
          ∃ b, b ≠ idx ∧ s.zoneBitmap.getValue b = false ∧ t.zoneBitmap.getValue b = true)
      (s.entering i idx dots) := by
  have hd' : DirAt (s.entering i idx dots) d p x := hd
  have hzone : ∀ k, zoneOf (s.entering i idx dots).disk x k = zoneOf s.disk x k :=
    (hz.entering hl hm hidx).1
  have hz' : HoldsZones (s.entering i idx dots) x := (hz.entering hl hm hidx).2
  rw [wp_flushDirEntry_at hd' hz.table_le]
  refine wp_mono (wp_flushZones_ends (hz'.flushOk hl (entering_map hm) hd'.2)) fun r t h hr => ?_
  obtain ⟨-, ⟨hall, rfl⟩ | ⟨⟨k, -, hk, hmissing⟩, b, hclear, hset⟩⟩ := h.2 hr
  · exact .inl ⟨fun k hk => hzone k ▸ (hall k (Nat.zero_le k) (by omega)).1, rfl⟩
  · refine .inr ⟨⟨k, by omega, hzone k ▸ hmissing⟩, b, ?_⟩
    have hclear : (s.zoneBitmap.setValue idx true).getValue b = false := hclear
    rw [Bitmap.getValue_setValue] at hclear
    split at hclear
    · cases hclear
    · exact ⟨‹_›, hclear, hset⟩

/-- The state with both bits set, in memory only. -/
abbrev State.bothSet (s : State) (i idx : Nat) : State :=
  (s.nextJunk.setInodeMap (s.inodeBitmap.setValue i true)).setZoneMap
    (s.zoneBitmap.setValue idx true)

theorem wp_enterZone (hl : Layout s.sb) (hm : ZoneMapOk s) (hd : DirAt s d p x)
    (hz : HoldsZones s x) (hi : s.inodeBitmap.findBlock 1 = some i)
    (hidx : s.zoneBitmap.findBlock 1 = some idx) {junk : Store} :
    wp (fun _ => True) (enterZone d name junk i (s.sb.sDataStartLba + idx))
      (fun r t => r = false →
        Restored s t ∧ MarkedBefore s x ∨ MapsChanged s t ∧ ¬ MarkedBefore s x)
      (s.bothSet i idx) := by
  obtain ⟨hlt, hclear, -⟩ := Bitmap.findBlock_one hidx
  have hlen := hm.len
  have hlt : idx < 4096 * s.sb.sZmapSz := by omega
  have hpad := hm.pad idx hlt hclear
  have hmax : maxLba = 163839 := rfl
  have hsub : u32Sub (s.sb.sDataStartLba + idx) s.sb.sDataStartLba = idx := by
    rw [u32Sub_of_le (by omega) (by omega), Nat.add_sub_cancel_left]
  unfold enterZone
  simp only [wp_bind, wp_get, hsub]
  rw [wp_check]
  refine ⟨fun _ => ?_, fun _ => trivial⟩
  rw [wp_flushBitmap (s := s.bothSet i idx) hl hlt]
  have hd₁ : DirAt ((s.bothSet i idx).setDisk (flushedMap (s.bothSet i idx) .zoneBitmap idx))
      d p x := hd
  rw [wp_of_ok (dirInode_some hd₁.1), wp_of_ok (inodeAt_some hd₁.2), wp_ideWrite_one hpad]
  unfold newDirEntry
  rw [wp_bind, wp_check]
  refine ⟨fun _ => ?_, fun _ => trivial⟩
  rw [wp_pure]
  refine wp_mono (wp_flushDirEntry_entering hl hm hd hz hidx) fun r t h => ?_
  cases r with
  | true =>
    rw [if_pos rfl]
    refine wp_mono (wp_of_returns (P := (· = true)) ?_) fun r t h hr => by rw [h] at hr; cases hr
    exact returns_bind fun _ => returns_bind fun _ => returns_bind fun _ => returns_bind fun _ =>
      returns_pure rfl
  | false =>
    rw [if_neg Bool.false_ne_true, wp_bind, wp_setBit_zone]
    refine ⟨fun _ => ?_, fun _ => trivial⟩
    rw [wp_bind, wp_setBit_inode]
    refine ⟨fun _ _ => ?_, fun _ => trivial⟩
    rcases h rfl with ⟨hall, rfl⟩ | ⟨⟨k, hk, hmissing⟩, b, hne, hclear, hset⟩
    · by_cases hfront : ∀ lba, lba < s.sb.sDataStartLba →
          sectorAt (s.tookZone idx).disk lba = sectorAt s.disk lba
      · exact .inl ⟨restored_entering hl hm hi hidx hfront,
          (marked_iff_front hi hidx hl hm hall).mpr hfront⟩
      · refine .inr ⟨.inr ?_, fun h => hfront ((marked_iff_front hi hidx hl hm hall).mp h)⟩
        push Not at hfront
        obtain ⟨lba, hlba, hne⟩ := hfront
        exact ⟨lba, hlba, fun h => hne ((entering_front hlba).symm.trans h)⟩
    · refine .inr ⟨.inl fun heq => ?_, not_marked_of_missing hi hidx hk hmissing⟩
      have hb : (t.zoneBitmap.setValue idx false).getValue b = s.zoneBitmap.getValue b :=
        congrArg (Bitmap.getValue · b) heq
      rw [Bitmap.getValue_setValue_ne hne, hclear, hset] at hb
      cases hb

theorem wp_enterNewDir (hl : Layout s.sb) (hm : ZoneMapOk s) (hd : DirAt s d p x)
    (hz : HoldsZones s x) :
    wp (fun _ => True) (enterNewDir d name) (fun r t => r = false →
      Restored s t ∧ MarkedBefore s x ∨ MapsChanged s t ∧ ¬ MarkedBefore s x) s := by
  unfold enterNewDir
  rw [wp_bind, wp_readJunk, wp_bind, wp_inodeBitmapAlloc]
  refine ⟨fun i hi => ?_, fun hnone _ => ?_⟩
  · rw [wp_bind, wp_zoneBitmapAlloc (s := s.nextJunk.setInodeMap _) ⟨hm.len, hm.pad⟩]
    refine ⟨fun idx hidx => wp_enterZone hl hm hd hz hi hidx, fun hnone => ?_⟩
    rw [wp_bind, wp_setBit_inode]
    refine ⟨fun _ _ => .inl ⟨?_, fun i idx _ h => ?_⟩, fun _ => trivial⟩
    · show Restored s ((s.nextJunk.setInodeMap (s.inodeBitmap.setValue i true)).setInodeMap
        ((s.inodeBitmap.setValue i true).setValue i false))
      rw [Bitmap.setValue_undo (Bitmap.findBlock_one hi).2.1]
      exact ⟨rfl, ⟨fun _ _ => rfl, fun _ _ _ => rfl⟩⟩
    · cases hnone.symm.trans h
  · refine .inl ⟨⟨rfl, ⟨fun _ _ => rfl, fun _ _ _ => rfl⟩⟩, fun i idx hi => ?_⟩
    cases hnone.symm.trans hi

end Attempt

end Frog.Fs
