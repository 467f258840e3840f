import Frog.Fs.Run

/-!
# What a file holds

The bytes of a file as its inode, its indirect table and its zones give them.
-/

namespace Frog.Fs

set_option autoImplicit false
open Bytes Prog

/-- The indirect table of an inode, zeros without one. -/
def tableOf (disk : Store) (x : Inode) : Store :=
  if x.iZones 12 = 0 then fun _ => 0 else sectors disk (x.iZones 12) 1

/-- The address of zone `k`, zero when it is not allocated. -/
def zoneOf (disk : Store) (x : Inode) (k : Nat) : Nat := zoneArray x.iZones (tableOf disk x) k

def fileByte (disk : Store) (x : Inode) (i : Nat) : Byte :=
  disk (512 * zoneOf disk x (i / 512) + i % 512)

/-- Every zone below the size is allocated and on the disk. -/
structure FileOk (disk : Store) (x : Inode) : Prop where
  size_le : x.iSize ≤ maxFileSize
  zone : ∀ k, 512 * k < x.iSize → zoneOf disk x k ≠ 0 ∧ zoneOf disk x k ≤ maxLba
  table : x.iZones 12 ≤ maxLba

/-- Slot `g` of the file table holds the in-core inode `x` at `p`. -/
structure OpenAt (s : State) (g p : Nat) (x : Inode) : Prop where
  slot : (s.fileTable g).fdInode = some p
  inode : s.inodes p = some x

/-- The same machine with other bytes where nothing was written. -/
def State.withJunk (s : State) (junk : Nat → Store) : State :=
  { s with env := { s.env with junk := junk } }

theorem zoneOf_direct {disk : Store} {x : Inode} {k : Nat} (h : k < 12) :
    zoneOf disk x k = x.iZones k := if_pos h

theorem directPrefix_of_ne {x : Inode} {k : Nat} (h : ∀ j, j ≤ k → x.iZones j ≠ 0) :
    directPrefix x k = x.iZones k := by
  unfold directPrefix
  rw [if_pos]
  simpa only [List.all_eq_true, List.mem_range, decide_eq_true_eq, Nat.lt_succ_iff] using h

/-- Up to the first unallocated zone, the scan that stops there sees the same addresses. -/
theorem zoneArray_directPrefix {disk : Store} {x : Inode} {k : Nat}
    (h : ∀ j, j ≤ k → j < 12 → x.iZones j ≠ 0) :
    zoneArray (directPrefix x) (tableOf disk x) k = zoneOf disk x k := by
  unfold zoneOf zoneArray
  by_cases hk : k < 12
  · rw [if_pos hk, if_pos hk, directPrefix_of_ne fun j hj => h j hj (by omega)]
  · rw [if_neg hk, if_neg hk]

theorem wp_readTable {E : Stop → Prop} {s : State} {x : Inode} {Q : Store → State → Prop}
    (hx : x.iZones 12 ≤ maxLba) : wp E (readTable x) Q s ↔ Q (tableOf s.disk x) s := by
  unfold readTable tableOf
  by_cases h : x.iZones 12 = 0
  · simp only [h, if_true, wp_pure]
  · simp only [h, if_false, wp_ideRead_one hx]

namespace FileOk

variable {disk : Store} {x : Inode}

theorem direct_ne (h : FileOk disk x) {k : Nat} (hk : k < 12) (hs : 512 * k < x.iSize) :
    x.iZones k ≠ 0 := by
  have := (h.zone k hs).1
  rwa [zoneOf_direct hk] at this

theorem fileZones_eq (h : FileOk disk x) (junk : Store) {k : Nat} (hs : 512 * k < x.iSize) :
    fileZones x (tableOf disk x) junk k = zoneOf disk x k := by
  have hm := h.size_le
  unfold maxFileSize at hm
  unfold fileZones
  rw [if_pos (by omega), zoneArray_directPrefix]
  intro j hj hj12
  exact h.direct_ne hj12 (by omega)

end FileOk

end Frog.Fs
