import Frog.Fs.Alloc

/-!
# In-core and on-disk inodes

`core/fs/inode.c`.
-/

namespace Frog.Fs

set_option autoImplicit false
open Bytes

structure Iposition where
  isCrossed : Bool
  startLba : Nat
  offset : Nat

/-- `locale_inode` after its assertion. -/
def inodePosition (sb : SuperBlock) (inodeNr : Nat) : Iposition :=
  let inodeOffset := u32 (inodeNr * 100)
  { startLba := u32 (sb.sInodeTableLba + inodeOffset / 512)
    offset := inodeOffset % 512
    isCrossed := 512 - inodeOffset % 512 < 100 }

def localeInode (inodeNr : Nat) : M Iposition := do
  let s ← Prog.get
  Prog.check (inodeNr < s.sb.sNinodes) .panic
  pure (inodePosition s.sb inodeNr)

def Iposition.cnt (pos : Iposition) : Nat := if pos.isCrossed then 2 else 1

/-- What `flush_inode` stores of an in-core inode. -/
def Inode.forDisk (x : Inode) : Inode :=
  { x with iCount := 0, iLock := 0, tagPrev := 0, tagNext := 0 }

/-- The callers pass a buffer of two sectors, never a null one. -/
def flushInode (x : Inode) : M Unit := do
  let pos ← localeInode x.iNum
  let s ← Prog.get
  Prog.check (pos.startLba ≤ u32 (s.sb.sInodeTableLba + s.sb.sInodeTableSz)) .panic
  let buf ← ideRead pos.startLba pos.cnt
  ideWrite pos.startLba (patch buf pos.offset 100 x.forDisk.toBytes) pos.cnt

def findOpenInode (inodeNr : Nat) : List Nat → M (Option Nat)
  | [] => pure none
  | p :: ps => do
    let x ← inodeAt p
    if x.iNum = inodeNr then pure (some p) else findOpenInode inodeNr ps

/-- `list_add` to `part->open_inodes`. -/
def listAddOpen (p : Nat) : M Unit :=
  Prog.modify fun s => { s with openInodes := p :: s.openInodes }

def inodeOpen (inodeNr : Nat) : M Nat := do
  let s ← Prog.get
  match ← findOpenInode inodeNr s.openInodes with
  | some p => pure p
  | none =>
    let pos ← localeInode inodeNr
    mustMalloc 100
    mustMalloc (pos.cnt * 512)
    let buf ← ideRead pos.startLba pos.cnt
    let x := Inode.ofBytes fun i => buf (pos.offset + i)
    let p ← newInodeObject { x with iCount := (x.iCount + 1) % 65536 }
    listAddOpen p
    pure p

/-- An inode that is not listed has null links, which `list_del_init` follows. -/
def inodeClose (p : Nat) : M Unit := do
  let x ← inodeAt p
  let iCount := (x.iCount + 65535) % 65536
  if iCount = 0 then
    let s ← Prog.get
    Prog.check (p ∈ s.openInodes) .fault
    Prog.modify fun s => { s with openInodes := s.openInodes.erase p }
    freeInode p
  else
    setInode p { x with iCount := iCount }

/-- `new_inode` leaves every field it does not name as it was. -/
def newInode (inodeNr : Nat) (x : Inode) : Inode :=
  { x with
    iNum := inodeNr
    iSize := 0
    iCount := 0
    iLock := 0
    iZones := fun i => if i < 13 then 0 else x.iZones i }

def inodeDelete (inodeNo : Nat) : M Unit := do
  let pos ← localeInode inodeNo
  let buf ← ideRead pos.startLba pos.cnt
  ideWrite pos.startLba (patch buf pos.offset 100 fun _ => 0) pos.cnt

/-- The direct addresses up to the first zero one. -/
def directPrefix (x : Inode) (i : Nat) : Nat :=
  if (List.range (i + 1)).all fun j => x.iZones j ≠ 0 then x.iZones i else 0

/-- An array of 140 addresses: twelve direct ones, then the words of the indirect table. -/
def zoneArray (direct : Nat → Nat) (table : Store) (i : Nat) : Nat :=
  if i < 12 then direct i else if i < 140 then le32 table (4 * (i - 12)) else 0

/-- The indirect table's sector, or zeros when the inode has none. -/
def readTable (x : Inode) : M Store :=
  if x.iZones 12 = 0 then pure fun _ => 0 else ideRead (x.iZones 12) 1

/-- `inode_all_zones`, which `dir.c`, `file.c`, `fs.c` and `inode.c` each hold a copy of. -/
def inodeAllZones (x : Inode) : M (Nat → Nat) := do
  let table ← readTable x
  pure (zoneArray (directPrefix x) table)

/-- The release of one zone in `inode_release`; returns the bit it cleared. -/
def releaseZone (lba : Nat) : M Nat := do
  let s ← Prog.get
  let idx := u32Sub lba s.sb.sDataStartLba
  Prog.check (0 < idx) .panic
  setBit .zoneBitmap idx false
  flushBitmap .zoneBitmap idx
  pure idx

/-- The loop over `all_zones[0..140]`, whose last element is always zero; `last` is
`zone_bitmap_idx`. -/
def releaseZones (zones : Nat → Nat) : Nat → Nat → Nat → M Nat
  | 0, _, last => pure last
  | left + 1, i, last =>
    if zones i = 0 then pure last
    else do
      let idx ← releaseZone (zones i)
      releaseZones zones left (i + 1) idx

/-- `zone_bitmap_idx` is uninitialised until a zone is released, and the inode bitmap is
flushed at that index, not at `inode_nr`. -/
def inodeRelease (inodeNr : Nat) : M Unit := do
  let p ← inodeOpen inodeNr
  let junk ← readJunk
  let x ← inodeAt p
  let zones ← inodeAllZones x
  let last ← releaseZones zones 141 0 (le32 junk 0)
  let last ← if x.iZones 12 ≠ 0 then releaseZone (x.iZones 12) else pure last
  setBit .inodeBitmap inodeNr false
  flushBitmap .inodeBitmap last
  mustMalloc 1024
  inodeDelete inodeNr
  inodeClose p

end Frog.Fs
