import Frog.Fs.Contents
import Frog.Fs.Layout

/-!
# The entries of a directory

A directory's entries sit in slots of its allocated zones. `liveAt` is the entry of a slot, if
`flush_dir_entry` would not take the slot for a free one.
-/

namespace Frog.Fs

set_option autoImplicit false
open Bytes Prog

def sectorAt (disk : Store) (lba : Nat) : Store := sectors disk lba 1

def dirSlot (disk : Store) (x : Inode) (k i : Nat) : DirEntry :=
  entryAt (sectorAt disk (zoneOf disk x k)) i

def liveAt (disk : Store) (x : Inode) (k i : Nat) : Option DirEntry :=
  if k < 140 ∧ i < perSector ∧ zoneOf disk x k ≠ 0 ∧ isFree (dirSlot disk x k i) = false then
    some (dirSlot disk x k i)
  else none

/-- A sector of the data area that the zone bitmap covers. -/
def InData (sb : SuperBlock) (lba : Nat) : Prop :=
  sb.sDataStartLba ≤ lba ∧ lba ≤ maxLba ∧ lba < sb.sDataStartLba + 4096 * sb.sZmapSz

/-- An in-core directory whose zones and table are distinct sectors of the data area. -/
structure DirOk (s : State) (p : Nat) (x : Inode) : Prop where
  layout : Layout s.sb
  mapLen : s.zoneBitmap.mapBytesLength = 512 * s.sb.sZmapSz
  inode : s.inodes p = some x
  num : x.iNum < s.sb.sNinodes
  zone : ∀ k, k < 140 → zoneOf s.disk x k ≠ 0 → InData s.sb (zoneOf s.disk x k)
  table : x.iZones 12 ≠ 0 → InData s.sb (x.iZones 12)
  inj : ∀ j k, j < 140 → k < 140 → zoneOf s.disk x j ≠ 0 →
    zoneOf s.disk x j = zoneOf s.disk x k → j = k
  table_ne : ∀ k, k < 140 → zoneOf s.disk x k ≠ 0 → zoneOf s.disk x k ≠ x.iZones 12

/-! ## Sectors -/

theorem sectorAt_apply {disk : Store} {lba i : Nat} (h : i < 512) :
    sectorAt disk lba i = disk (512 * lba + i) := sectors_apply (by omega)

/-- A write elsewhere leaves the sector. -/
theorem sectorAt_patch_out {disk src : Store} {lba off len : Nat}
    (h : 512 * lba + 512 ≤ off ∨ off + len ≤ 512 * lba) :
    sectorAt (patch disk off len src) lba = sectorAt disk lba := by
  funext i
  unfold sectorAt sectors
  split
  · exact patch_out (by omega)
  · rfl

theorem sectorAt_patch_self {disk src : Store} {lba i : Nat} (h : i < 512) :
    sectorAt (patch disk (512 * lba) 512 src) lba i = src i := by
  rw [sectorAt_apply h, patch_in (by omega), Nat.add_sub_cancel_left]

theorem entryAt_congr {b b' : Store} {i : Nat} (h : ∀ j, j < 24 → b (24 * i + j) = b' (24 * i + j)) :
    entryAt b i = entryAt b' i := by
  unfold entryAt
  congr 1
  · funext j
    split
    · exact h j (by omega)
    · rfl
  · exact le32_congr fun j hj => by simpa only [Nat.add_assoc] using h (16 + j) (by omega)
  · exact le32_congr fun j hj => by simpa only [Nat.add_assoc] using h (20 + j) (by omega)

/-- A slot that is not written keeps its entry. -/
theorem entryAt_patch_ne {b src : Store} {i slot : Nat} (h : i ≠ slot) :
    entryAt (patch b (24 * slot) 24 src) i = entryAt b i :=
  entryAt_congr fun j hj => patch_out (by omega)

/-! ## What the entries depend on -/

theorem tableOf_congr {disk disk' : Store} {x x' : Inode} (hz : x'.iZones 12 = x.iZones 12)
    (ht : x.iZones 12 ≠ 0 → sectorAt disk' (x.iZones 12) = sectorAt disk (x.iZones 12)) :
    tableOf disk' x' = tableOf disk x := by
  unfold tableOf
  rw [hz]
  split
  · rfl
  · exact ht ‹_›

theorem zoneOf_congr {disk disk' : Store} {x x' : Inode} (hz : ∀ k, k ≤ 12 → x'.iZones k = x.iZones k)
    (ht : x.iZones 12 ≠ 0 → sectorAt disk' (x.iZones 12) = sectorAt disk (x.iZones 12)) (k : Nat) :
    zoneOf disk' x' k = zoneOf disk x k := by
  unfold zoneOf zoneArray
  rw [tableOf_congr (hz 12 (by omega)) ht]
  split
  · exact hz k (by omega)
  · rfl

theorem dirSlot_congr {disk disk' : Store} {x x' : Inode} {k : Nat} (i : Nat)
    (hz : zoneOf disk' x' k = zoneOf disk x k)
    (hs : sectorAt disk' (zoneOf disk x k) = sectorAt disk (zoneOf disk x k)) :
    dirSlot disk' x' k i = dirSlot disk x k i := by
  unfold dirSlot
  rw [hz, hs]

/-- The entry of a slot depends on the slot and on whether its zone is allocated. -/
theorem liveAt_congr {disk disk' : Store} {x x' : Inode} {k i : Nat}
    (hz : zoneOf disk' x' k = zoneOf disk x k) (hs : dirSlot disk' x' k i = dirSlot disk x k i) :
    liveAt disk' x' k i = liveAt disk x k i := by
  unfold liveAt
  rw [hz, hs]

theorem liveAt_eq_some {disk : Store} {x : Inode} {k i : Nat} {e : DirEntry} :
    liveAt disk x k i = some e ↔
      k < 140 ∧ i < perSector ∧ zoneOf disk x k ≠ 0 ∧ isFree e = false ∧ dirSlot disk x k i = e := by
  unfold liveAt
  constructor
  · intro h
    split_ifs at h with hc
    cases h
    exact ⟨hc.1, hc.2.1, hc.2.2.1, hc.2.2.2, rfl⟩
  · rintro ⟨h1, h2, h3, h4, rfl⟩
    exact if_pos ⟨h1, h2, h3, h4⟩

theorem liveAt_unallocated {disk : Store} {x : Inode} {k i : Nat} (h : zoneOf disk x k = 0) :
    liveAt disk x k i = none := if_neg (by tauto)

/-- An entry as it fits its 24 bytes; its name ends inside `filename`. -/
structure EntryOk (e : DirEntry) : Prop where
  name : ∀ j, 15 ≤ j → e.filename j = 0
  no : e.iNo < 2 ^ 32
  type : e.fType < 2 ^ 32

theorem entryOf_ok {name : Name} {inodeNr : Nat} {t : FileType} (hn : name.length < 16)
    (hi : inodeNr < 2 ^ 32) : EntryOk (entryOf name inodeNr t) where
  name j hj := List.getD_eq_default _ _ (by omega)
  no := hi
  type := by
    show t.code < 2 ^ 32
    cases t <;> decide

/-- What is written to a slot reads back. -/
theorem entryAt_putEntry {b : Store} {slot : Nat} {e : DirEntry} (h : EntryOk e) :
    entryAt (putEntry b slot e) slot = e := by
  have hb : ∀ j, j < 24 → putEntry b slot e (24 * slot + j) = e.toBytes j := fun j hj => by
    rw [putEntry, patch_in (by omega), Nat.add_sub_cancel_left]
  have hn : (entryAt (putEntry b slot e) slot).filename = e.filename := by
    funext j
    by_cases hj : j < 16
    · simp only [entryAt, if_pos hj, hb j (by omega), DirEntry.toBytes]
    · simp only [entryAt, if_neg hj, h.name j (by omega)]
  have hi : (entryAt (putEntry b slot e) slot).iNo = e.iNo :=
    le32_of_bytes_lt h.no fun j hj => by
      rw [Nat.add_assoc, hb _ (by omega), DirEntry.toBytes, if_neg (by omega), if_pos (by omega),
        Nat.add_sub_cancel_left]
  have ht : (entryAt (putEntry b slot e) slot).fType = e.fType :=
    le32_of_bytes_lt h.type fun j hj => by
      rw [Nat.add_assoc, hb _ (by omega), DirEntry.toBytes, if_neg (by omega), if_neg (by omega),
        Nat.add_sub_cancel_left]
  cases e
  cases he : entryAt (putEntry b slot _) slot
  simp only [he] at hn hi ht
  simp only [hn, hi, ht]

theorem zoneOf_zero {disk : Store} {x : Inode} {k : Nat} (h : 140 ≤ k) : zoneOf disk x k = 0 := by
  unfold zoneOf zoneArray
  rw [if_neg (by omega), if_neg (by omega)]

/-! ## A directory of one zone -/

/-- Inode 5, a directory whose only zone is sector 900. -/
def zoneDir : Inode :=
  { (newInode 5 zeroInode).setZone 0 900 with
    iMode := FileType.directory.mode, iSize := 504, iCount := 1 }

/-- A partition at the start of the disk. Sector 900 holds the entries of the directory, whose
inode is in core at 1 and open at 2; zones up to 907 are in use. -/
def oneZone (entries : Store) : State :=
  { State.boot with
    disk := patch (fun _ => 0) (512 * 900) 512 entries
    sb := formatBlock 0 4000
    zoneBitmap := { bits := fun i => if i < 13 then 0xff#8 else 0, mapBytesLength := 512 }
    inodeBitmap := { bits := fun i => if i < 2 then 0xff#8 else 0, mapBytesLength := 512 }
    inodes := Function.update (fun _ => none) 1 (some zoneDir)
    openInodes := [1]
    dirs := Function.update (fun _ => none) 2
      (some { inode := some 1, dirPos := 0, dirBuf := fun _ => 0 })
    next := 3 }

theorem layout_small : Layout (formatBlock 0 4000) := by
  constructor <;> decide +kernel

theorem inData_900 : InData (formatBlock 0 4000) 900 := by
  unfold InData
  decide +kernel

theorem zoneOf_zoneDir (disk : Store) (k : Nat) :
    zoneOf disk zoneDir k = if k = 0 then 900 else 0 := by
  by_cases hk : k < 12
  · rw [zoneOf_direct hk]
    simp only [zoneDir, newInode]
    split
    · rfl
    · rw [if_pos (by omega)]
  · rw [if_neg (by omega)]
    unfold zoneOf zoneArray
    rw [if_neg hk]
    split
    · exact le32_zero fun _ _ => by rw [tableOf, if_pos (show zoneDir.iZones 12 = 0 from rfl)]
    · rfl

theorem oneZone_ok (entries : Store) : DirOk (oneZone entries) 1 zoneDir where
  layout := layout_small
  mapLen := show 512 = 512 * (formatBlock 0 4000).sZmapSz by decide +kernel
  inode := rfl
  num := show 5 < 4096 by decide
  zone k _ h := by
    rw [zoneOf_zoneDir] at h ⊢
    split at h
    · rw [if_pos ‹_›]
      exact inData_900
    · exact absurd rfl h
  table h := absurd rfl h
  inj j k _ _ h hjk := by
    rw [zoneOf_zoneDir] at h hjk
    rw [zoneOf_zoneDir] at hjk
    split_ifs at h hjk <;> omega
  table_ne _ _ h := h

end Frog.Fs
