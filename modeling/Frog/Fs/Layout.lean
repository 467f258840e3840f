import Frog.Fs.Run

/-!
# The layout of a mounted partition

From the super block on, the partition holds the inode bitmap, the zone bitmap, the inode table
and the data. With the areas in that order, an inode is 100 bytes of the table and a flush of a
bitmap is one sector of its area.
-/

namespace Frog.Fs

set_option autoImplicit false
open Bytes Prog

/-- The areas follow one another and lie on the disk. -/
structure Layout (sb : SuperBlock) : Prop where
  imap : 1 < sb.sImapLba
  zmap : sb.sImapLba + sb.sImapSz ≤ sb.sZmapLba
  itable : sb.sZmapLba + sb.sZmapSz ≤ sb.sInodeTableLba
  data : sb.sInodeTableLba + sb.sInodeTableSz ≤ sb.sDataStartLba
  inodes : 100 * sb.sNinodes ≤ 512 * sb.sInodeTableSz
  table : 12 ≤ sb.sInodeTableSz
  disk : sb.sDataStartLba ≤ maxLba

/-- The inode table holds its inodes and lies on the disk. -/
structure InodeTable (sb : SuperBlock) : Prop where
  fits : 100 * sb.sNinodes ≤ 512 * sb.sInodeTableSz
  disk : sb.sInodeTableLba + sb.sInodeTableSz ≤ maxLba + 1

/-- Where an inode lies on the disk. -/
def inodeAddr (sb : SuperBlock) (inodeNr : Nat) : Nat := 512 * sb.sInodeTableLba + 100 * inodeNr

def SuperBlock.mapLba (sb : SuperBlock) : BitmapType → Nat
  | .inodeBitmap => sb.sImapLba
  | .zoneBitmap => sb.sZmapLba

def SuperBlock.mapSz (sb : SuperBlock) : BitmapType → Nat
  | .inodeBitmap => sb.sImapSz
  | .zoneBitmap => sb.sZmapSz

def State.map (s : State) : BitmapType → Bitmap
  | .inodeBitmap => s.inodeBitmap
  | .zoneBitmap => s.zoneBitmap

/-- The disk after the sector of a bitmap that holds bit `idx` is written back. -/
def flushedMap (s : State) (t : BitmapType) (idx : Nat) : Store :=
  patch s.disk (512 * (s.sb.mapLba t + idx / 4096)) 512
    fun i => (s.map t).bits (512 * (idx / 4096) + i)

/-- The sectors of an inode are sectors of the table. -/
theorem InodeTable.position_eq {sb : SuperBlock} (h : InodeTable sb) {nr : Nat}
    (hn : nr < sb.sNinodes) :
    (inodePosition sb nr).startLba = sb.sInodeTableLba + 100 * nr / 512 ∧
      (inodePosition sb nr).offset = 100 * nr % 512 ∧
      100 * nr % 512 + 100 ≤ 512 * (inodePosition sb nr).cnt ∧
      100 * nr / 512 + (inodePosition sb nr).cnt ≤ sb.sInodeTableSz ∧
      0 < (inodePosition sb nr).cnt := by
  have hd := h.disk
  have hi := h.fits
  have hm : maxLba = 163839 := rfl
  have hu : u32 (nr * 100) = 100 * nr := by
    unfold u32
    omega
  have hs : u32 (sb.sInodeTableLba + 100 * nr / 512) = sb.sInodeTableLba + 100 * nr / 512 := by
    unfold u32
    omega
  simp only [inodePosition, Iposition.cnt, hu, hs, true_and, decide_eq_true_eq]
  split <;> omega

namespace Layout

variable {sb : SuperBlock}

theorem bounds (h : Layout sb) :
    sb.mapLba .inodeBitmap + sb.mapSz .inodeBitmap ≤ sb.sZmapLba ∧
      sb.mapLba .zoneBitmap + sb.mapSz .zoneBitmap ≤ sb.sInodeTableLba ∧
      sb.sInodeTableLba + sb.sInodeTableSz ≤ sb.sDataStartLba ∧ sb.sDataStartLba < 163840 := by
  have := h.disk
  unfold maxLba at this
  exact ⟨h.zmap, h.itable, h.data, by omega⟩

theorem map_lt (h : Layout sb) (t : BitmapType) : sb.mapLba t + sb.mapSz t ≤ sb.sInodeTableLba := by
  have hz := h.itable
  cases t
  · have := h.zmap
    simp only [SuperBlock.mapLba, SuperBlock.mapSz]
    omega
  · exact hz

theorem data_gt (h : Layout sb) : 12 < sb.sDataStartLba := by
  have := h.imap
  have := h.zmap
  have := h.itable
  have := h.data
  have := h.table
  omega

theorem inodeTable (h : Layout sb) : InodeTable sb := by
  have hd := h.data
  have hm := h.disk
  exact ⟨h.inodes, by omega⟩

end Layout

variable {E : Stop → Prop} {s : State}

theorem wp_flushBitmap {Q : Unit → State → Prop} {t : BitmapType} {idx : Nat} (hl : Layout s.sb)
    (hi : idx < 4096 * s.sb.mapSz t) :
    wp E (flushBitmap t idx) Q s ↔ Q () (s.setDisk (flushedMap s t idx)) := by
  have hd := hl.bounds
  have ht := hl.map_lt t
  have hs : sectorOfBit idx = idx / 4096 := if_pos (by omega)
  have hu : u32 (idx / 4096 * 512) = 512 * (idx / 4096) := by
    unfold u32
    omega
  have hlba : s.sb.mapLba t + idx / 4096 ≤ maxLba := by
    unfold maxLba
    omega
  have hul : u32 (s.sb.mapLba t + idx / 4096) = s.sb.mapLba t + idx / 4096 := by
    unfold u32
    omega
  cases t <;>
  · simp only [SuperBlock.mapLba] at hul hlba
    simp only [flushBitmap, wp_bind, wp_get, hs, hu, hul, wp_ideWrite_one hlba]
    rfl

@[simp] theorem wp_setBit_inode {Q : Unit → State → Prop} {pos : Nat} {v : Bool} :
    wp E (setBit .inodeBitmap pos v) Q s ↔
      (pos < s.inodeBitmap.mapBytesLength * 8 →
        Q () (s.setInodeMap (s.inodeBitmap.setValue pos v))) ∧
        (¬ pos < s.inodeBitmap.mapBytesLength * 8 → E .panic) := by
  simp only [setBit, wp_bind, wp_get, wp_check, wp_modify]

@[simp] theorem wp_setBit_zone {Q : Unit → State → Prop} {pos : Nat} {v : Bool} :
    wp E (setBit .zoneBitmap pos v) Q s ↔
      (pos < s.zoneBitmap.mapBytesLength * 8 →
        Q () (s.setZoneMap (s.zoneBitmap.setValue pos v))) ∧
        (¬ pos < s.zoneBitmap.mapBytesLength * 8 → E .panic) := by
  simp only [setBit, wp_bind, wp_get, wp_check, wp_modify]

/-- An inode's bytes are read, overwritten and written back with the sectors they lie in. -/
theorem InodeTable.wp_rewrite {Q : Unit → State → Prop} {nr : Nat} {src : Store}
    (h : InodeTable s.sb) (hn : nr < s.sb.sNinodes) :
    wp E (do
      let buf ← ideRead (inodePosition s.sb nr).startLba (inodePosition s.sb nr).cnt
      ideWrite (inodePosition s.sb nr).startLba (patch buf (inodePosition s.sb nr).offset 100 src)
        (inodePosition s.sb nr).cnt) Q s ↔
      Q () (s.setDisk (patch s.disk (inodeAddr s.sb nr) 100 src)) := by
  obtain ⟨hs, ho, hc, ht, hp⟩ := h.position_eq hn
  have hd := h.disk
  have hend : 0 < (inodePosition s.sb nr).cnt ∧
      s.sb.sInodeTableLba + 100 * nr / 512 + (inodePosition s.sb nr).cnt ≤ maxLba + 1 := by
    omega
  have hbuf : patch s.disk (512 * (s.sb.sInodeTableLba + 100 * nr / 512))
      (512 * (inodePosition s.sb nr).cnt)
      (patch (sectors s.disk (s.sb.sInodeTableLba + 100 * nr / 512)
        (inodePosition s.sb nr).cnt) (100 * nr % 512) 100 src) =
      patch s.disk (inodeAddr s.sb nr) 100 src := by
    have haddr : inodeAddr s.sb nr =
        512 * (s.sb.sInodeTableLba + 100 * nr / 512) + 100 * nr % 512 := by
      unfold inodeAddr
      omega
    rw [haddr, ← patch_patch_inner hc]
    refine patch_congr fun i hi => ?_
    unfold patch
    split
    · rfl
    · exact sectors_apply hi
  simp only [wp_bind, hs, ho, wp_ideRead, wp_ideWrite, hend, hbuf, true_implies, not_true_eq_false,
    false_implies, and_true, and_self]

theorem InodeTable.wp_flushInode {Q : Unit → State → Prop} {x : Inode} (h : InodeTable s.sb)
    (hn : x.iNum < s.sb.sNinodes) :
    wp E (flushInode x) Q s ↔
      Q () (s.setDisk (patch s.disk (inodeAddr s.sb x.iNum) 100 x.forDisk.toBytes)) := by
  obtain ⟨hs, ho, hc, ht, hp⟩ := h.position_eq hn
  have hd := h.disk
  have hm : maxLba = 163839 := rfl
  have hcheck : (inodePosition s.sb x.iNum).startLba ≤
      u32 (s.sb.sInodeTableLba + s.sb.sInodeTableSz) := by
    unfold u32
    omega
  rw [← h.wp_rewrite (E := E) (Q := Q) hn]
  simp only [flushInode, localeInode, wp_bind, wp_get, wp_check, wp_pure, hn, hcheck, true_implies,
    not_true_eq_false, false_implies, and_true]

theorem wp_flushInode {Q : Unit → State → Prop} {x : Inode} (hl : Layout s.sb)
    (hn : x.iNum < s.sb.sNinodes) :
    wp E (flushInode x) Q s ↔
      Q () (s.setDisk (patch s.disk (inodeAddr s.sb x.iNum) 100 x.forDisk.toBytes)) :=
  hl.inodeTable.wp_flushInode hn

/-! ## Flushes that are not aimed -/

/-- Whatever index it is given, a flush changes nothing but the disk. -/
theorem wp_flushBitmap_any {Q : Unit → State → Prop} {t : BitmapType} {idx : Nat}
    (hE : E .panic) (h : ∀ disk, Q () (s.setDisk disk)) : wp E (flushBitmap t idx) Q s := by
  cases t <;>
  · simp only [flushBitmap, wp_bind, wp_get, wp_ideWrite]
    exact ⟨fun _ => h _, fun _ => hE⟩

/-- The data area is not reached by a flush of the zone bitmap, not even by one for sector 0. -/
theorem wp_flushBitmap_low {Q : Unit → State → Prop} {idx : Nat} (hl : Layout s.sb)
    (hi : idx < 4096 * s.sb.sZmapSz ∨ idx = u32Sub 0 s.sb.sDataStartLba) (hE : E .panic)
    (h : ∀ lba src, lba < s.sb.sDataStartLba →
      Q () (s.setDisk (patch s.disk (512 * lba) 512 src))) :
    wp E (flushBitmap .zoneBitmap idx) Q s := by
  have hd := hl.bounds
  have him := hl.imap
  have htab := hl.table
  simp only [SuperBlock.mapLba, SuperBlock.mapSz] at hd
  rcases hi with hi | rfl
  · rw [wp_flushBitmap hl (by exact hi)]
    exact h _ _ (by simp only [SuperBlock.mapLba]; omega)
  · have hlow : u32 (s.sb.sZmapLba + sectorOfBit (u32Sub 0 s.sb.sDataStartLba)) ≤ maxLba →
        u32 (s.sb.sZmapLba + sectorOfBit (u32Sub 0 s.sb.sDataStartLba)) < s.sb.sDataStartLba := by
      unfold sectorOfBit u32Sub u32 maxLba
      split <;> omega
    simp only [flushBitmap, wp_bind, wp_get, wp_ideWrite, Nat.mul_one]
    exact ⟨fun hle => h _ _ (hlow (by omega)), fun _ => hE⟩

/-! ## Taking a zone -/

/-- The zone bitmap covers its sectors, and no clear bit stands for a sector past the disk. -/
structure ZoneMapOk (s : State) : Prop where
  len : s.zoneBitmap.mapBytesLength = 512 * s.sb.sZmapSz
  pad : ∀ b, b < 4096 * s.sb.sZmapSz → s.zoneBitmap.getValue b = false →
    s.sb.sDataStartLba + b ≤ maxLba

/-- The state after zone `idx` is marked as used, in memory and on disk. -/
abbrev State.tookZone (s : State) (idx : Nat) : State :=
  let t := s.setZoneMap (s.zoneBitmap.setValue idx true)
  t.setDisk (flushedMap t .zoneBitmap idx)

theorem wp_takeFreeZone {Q : Option Nat → State → Prop} (hl : Layout s.sb)
    (hlen : s.zoneBitmap.mapBytesLength = 512 * s.sb.sZmapSz) :
    wp E takeFreeZone Q s ↔
      (∀ idx, s.zoneBitmap.findBlock 1 = some idx →
        Q (some (s.sb.sDataStartLba + idx)) (s.tookZone idx)) ∧
        (s.zoneBitmap.findBlock 1 = none → Q none s) := by
  have hd := hl.bounds
  cases hf : s.zoneBitmap.findBlock 1 with
  | none => simp [takeFreeZone, zoneBitmapAlloc, hf]
  | some idx =>
    have hlt := (Bitmap.findBlock_one hf).1
    have hi : idx < 4096 * s.sb.sZmapSz := by omega
    simp only [SuperBlock.mapLba, SuperBlock.mapSz] at hd
    have hu : u32 (s.sb.sDataStartLba + idx) = s.sb.sDataStartLba + idx := u32_of_lt (by omega)
    have ho : orMinusOne (s.sb.sDataStartLba + idx) = some (s.sb.sDataStartLba + idx) :=
      if_neg (by omega)
    have hs : u32Sub (s.sb.sDataStartLba + idx) s.sb.sDataStartLba = idx := by
      rw [u32Sub_of_le (by omega) (by omega)]
      omega
    have hfl : wp E (flushBitmap .zoneBitmap idx)
        (fun _ t => Q (some (s.sb.sDataStartLba + idx)) t)
          (s.setZoneMap (s.zoneBitmap.setValue idx true)) ↔
        Q (some (s.sb.sDataStartLba + idx)) (s.tookZone idx) := wp_flushBitmap hl hi
    simp only [takeFreeZone, zoneBitmapAlloc, wp_bind, wp_get, hf, wp_setBit_zone, hlt, true_implies,
      not_true_eq_false, false_implies, and_true, wp_pure, hu, ho, hs, hfl, Option.some.injEq,
      forall_eq', reduceCtorEq]

/-- Taking a zone leaves the data sectors as they are. -/
theorem tookZone_sector (hl : Layout s.sb) {idx lba : Nat} (hi : idx < 4096 * s.sb.sZmapSz)
    (hlba : s.sb.sInodeTableLba ≤ lba) :
    sectors (s.tookZone idx).disk lba 1 = sectors s.disk lba 1 := by
  have hd := hl.itable
  funext i
  unfold sectors
  split
  · simp only [flushedMap, SuperBlock.mapLba]
    exact patch_out (by omega)
  · rfl

end Frog.Fs
