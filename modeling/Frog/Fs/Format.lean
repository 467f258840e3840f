import Frog.Fs.Syscalls

/-!
# Formatting and mounting

`partition_format`, `mount_partition` and the end of `fs_init` in `core/fs/fs.c`.
-/

namespace Frog.Fs

set_option autoImplicit false
open Bytes

def superMagic : Nat := 0x2023B07A

def SuperBlock.ofBytes (b : Store) : SuperBlock where
  sMagic := le32 b 0
  sNinodes := le32 b 4
  sNzones := le32 b 8
  sImapLba := le32 b 12
  sImapSz := le32 b 16
  sZmapLba := le32 b 20
  sZmapSz := le32 b 24
  sInodeTableLba := le32 b 28
  sInodeTableSz := le32 b 32
  sDataStartLba := le32 b 36
  rootInodeNo := le32 b 40
  dirEntrySize := le32 b 44

def SuperBlock.words (sb : SuperBlock) : List Nat :=
  [sb.sMagic, sb.sNinodes, sb.sNzones, sb.sImapLba, sb.sImapSz, sb.sZmapLba, sb.sZmapSz,
    sb.sInodeTableLba, sb.sInodeTableSz, sb.sDataStartLba, sb.rootInodeNo, sb.dirEntrySize]

/-- Five fields of the local variable are never set; the rest is padding. -/
def SuperBlock.toBytes (sb : SuperBlock) (junk : Store) : Store := fun o =>
  if o < 48 then leByte (sb.words.getD (o / 4) 0) (o % 4) else if o < 65 then junk o else 0

/-! ## The layout of a partition -/

def inodeBitmapSz : Nat := 1

def inodeTableSz : Nat := 800

/-- Sectors left for the zone bitmap and the zones. -/
def freeSectorSz (secCnt : Nat) : Nat := u32Sub secCnt (1 + 1 + inodeBitmapSz + inodeTableSz)

def bmLen (secCnt : Nat) : Nat :=
  u32Sub (freeSectorSz secCnt) (divRoundUp (freeSectorSz secCnt) 4096)

def zoneBitmapSz (secCnt : Nat) : Nat := divRoundUp (bmLen secCnt) 4096

def formatBlock (startLba secCnt : Nat) : SuperBlock where
  sMagic := superMagic
  sNinodes := 4096
  sNzones := divRoundUp (u32Sub (freeSectorSz secCnt) (zoneBitmapSz secCnt)) 512
  sImapLba := u32 (startLba + 2)
  sImapSz := inodeBitmapSz
  sZmapLba := u32 (startLba + 2 + inodeBitmapSz)
  sZmapSz := zoneBitmapSz secCnt
  sInodeTableLba := u32 (startLba + 2 + inodeBitmapSz + zoneBitmapSz secCnt)
  sInodeTableSz := inodeTableSz
  sDataStartLba := u32 (startLba + 2 + inodeBitmapSz + zoneBitmapSz secCnt + inodeTableSz)
  rootInodeNo := 0
  dirEntrySize := 24

/-- `0xff` with the bits up to `lastBit` cleared. -/
def clearLow (lastBit : Nat) : Byte :=
  (List.range (lastBit + 1)).foldl (fun b k => b &&& ~~~(1#8 <<< k)) 0xff#8

/-- The zone bitmap: the root directory's bit, and ones from the last byte to the end of its
sector. -/
def zoneMapBytes (len : Nat) : Store := fun i =>
  if i = len / 8 then clearLow (len % 8)
  else if len / 8 < i ∧ i < len / 8 + (512 - len / 8 % 512) then 0xff#8
  else if i = 0 then 1 else 0

def inodeMapBytes : Store := fun i => if i = 0 then 1 else 0

def rootInode (dataStartLba : Nat) : Inode :=
  { zeroInode.setZone 0 dataStartLba with iSize := 48, iMode := FileType.directory.mode }

/-- `partition_format`. -/
def partitionFormat (startLba secCnt : Nat) : M Unit :=
  if secCnt = 0 then pure ()
  else do
    let sb := formatBlock startLba secCnt
    let junk ← readJunk
    ideWrite (u32 (startLba + 1)) (sb.toBytes junk) 1
    let bufSz := max (max sb.sImapSz sb.sZmapSz) sb.sInodeTableSz
    mustMalloc (bufSz * 512)
    Prog.check (bmLen secCnt / 4096 + 1 ≤ bufSz) .fault
    ideWrite sb.sZmapLba (zoneMapBytes (bmLen secCnt)) sb.sZmapSz
    ideWrite sb.sImapLba inodeMapBytes sb.sImapSz
    ideWrite sb.sInodeTableLba
      (patch (fun _ => 0) 0 100 (rootInode sb.sDataStartLba).toBytes) sb.sInodeTableSz
    ideWrite sb.sDataStartLba (dotsSector 0 0) 1

/-- `mount_partition` on the partition that has the right name. -/
def mountPartition (startLba : Nat) : M Unit := do
  let ok ← sysMalloc 512
  Prog.check (ok = true) .panic
  let b ← ideRead (u32 (startLba + 1)) 1
  let sb := SuperBlock.ofBytes b
  Prog.check (sb.sMagic = superMagic) .panic
  let ok ← sysMalloc (u32 (sb.sZmapSz * 512))
  Prog.check (ok = true) .panic
  let zbm ← ideRead sb.sZmapLba sb.sZmapSz
  let ok ← sysMalloc (u32 (sb.sImapSz * 512))
  Prog.check (ok = true) .panic
  let ibm ← ideRead sb.sImapLba sb.sImapSz
  Prog.modify fun s => { s with
    sb := sb
    zoneBitmap := { bits := zbm, mapBytesLength := u32 (sb.sZmapSz * 512) }
    inodeBitmap := { bits := ibm, mapBytesLength := u32 (sb.sImapSz * 512) }
    openInodes := [] }

/-- The end of `fs_init`: mount, open the root directory and clear the file table. -/
def fsMount (startLba : Nat) : M Unit := do
  mountPartition startLba
  openRootDir
  Prog.modify fun s => { s with fileTable := fun g => { s.fileTable g with fdInode := none } }

end Frog.Fs
