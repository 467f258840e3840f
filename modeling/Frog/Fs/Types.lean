import Frog.Bitmap
import Frog.Lib.Prog

/-!
# The data of the file system

`core/include/fs/*.h` and `core/include/device/ide.h`: the structures as they lie in memory and
on disk, and the state the calls run on. 32-bit values are natural numbers reduced modulo
`2 ^ 32` where the source's arithmetic can wrap.

Two things end a call early. `panic` is a failed `ASSERT` or a `PANIC`, which halts the machine.
`fault` is undefined behaviour: a null, dangling or uninitialised pointer is used, or a write
leaves its object. Reads that leave their object and uninitialised memory give arbitrary bytes,
which `Env` supplies.
-/

namespace Frog.Fs

set_option autoImplicit false
open Bytes

def u32 (n : Nat) : Nat := n % 2 ^ 32

/-- Unsigned subtraction of 32-bit values. -/
def u32Sub (a b : Nat) : Nat := (2 ^ 32 + a - b) % 2 ^ 32

theorem u32_of_lt {n : Nat} (h : n < 2 ^ 32) : u32 n = n := by
  unfold u32
  exact Nat.mod_eq_of_lt h

theorem u32_lt (n : Nat) : u32 n < 2 ^ 32 := by
  unfold u32
  exact Nat.mod_lt _ (by norm_num)

theorem u32Sub_of_le {a b : Nat} (h : b ≤ a) (ha : a < 2 ^ 32) : u32Sub a b = a - b := by
  unfold u32Sub
  omega

/-- A 32-bit result that its caller compares with `-1`. -/
def orMinusOne (v : Nat) : Option Nat := if v = 2 ^ 32 - 1 then none else some v

inductive FileType where
  | unkown | fifo | char | directory | block | regular
  deriving DecidableEq, Repr

def FileType.code : FileType → Nat
  | unkown => 0
  | fifo => 1
  | char => 2
  | directory => 3
  | block => 4
  | regular => 5

/-- `i_mode >> 11`. -/
def modeType (iMode : Nat) : Nat := iMode / 2048

def FileType.mode (t : FileType) : Nat := t.code * 2048

inductive BitmapType where
  | inodeBitmap | zoneBitmap
  deriving DecidableEq, Repr

/-- The value of the enumerator, which `delete_dir_entry` passes as a bit position. -/
def BitmapType.code : BitmapType → Nat
  | inodeBitmap => 0
  | zoneBitmap => 1

structure SuperBlock where
  sMagic : Nat
  sNinodes : Nat
  sNzones : Nat
  sImapLba : Nat
  sImapSz : Nat
  sZmapLba : Nat
  sZmapSz : Nat
  sInodeTableLba : Nat
  sInodeTableSz : Nat
  sDataStartLba : Nat
  rootInodeNo : Nat
  dirEntrySize : Nat

/-- `struct inode`, 100 bytes; `pad18` and `pad90` are its two holes. -/
structure Inode where
  iNum : Nat
  iMode : Nat
  iUid : Nat
  iSize : Nat
  iMtime : Nat
  iGid : Nat
  iNlinks : Nat
  pad18 : Nat
  iZones : Nat → Nat
  iAtime : Nat
  iCtime : Nat
  iDev : Nat
  iCount : Nat
  iLock : Nat
  iDirt : Nat
  iPipe : Nat
  iMount : Nat
  iSeek : Nat
  iUpdate : Nat
  pad90 : Nat
  tagPrev : Nat
  tagNext : Nat

def byteAt (b : Store) (o : Nat) : Nat := (b o).toNat

def Inode.ofBytes (b : Store) : Inode where
  iNum := le32 b 0
  iMode := le16 b 4
  iUid := le16 b 6
  iSize := le32 b 8
  iMtime := le32 b 12
  iGid := byteAt b 16
  iNlinks := byteAt b 17
  pad18 := le16 b 18
  iZones k := if k < 13 then le32 b (20 + 4 * k) else 0
  iAtime := le32 b 72
  iCtime := le32 b 76
  iDev := le16 b 80
  iCount := le16 b 82
  iLock := byteAt b 84
  iDirt := byteAt b 85
  iPipe := byteAt b 86
  iMount := byteAt b 87
  iSeek := byteAt b 88
  iUpdate := byteAt b 89
  pad90 := le16 b 90
  tagPrev := le32 b 92
  tagNext := le32 b 96

def Inode.toBytes (x : Inode) : Store := fun o =>
  if o < 4 then leByte x.iNum o
  else if o < 6 then leByte x.iMode (o - 4)
  else if o < 8 then leByte x.iUid (o - 6)
  else if o < 12 then leByte x.iSize (o - 8)
  else if o < 16 then leByte x.iMtime (o - 12)
  else if o < 17 then leByte x.iGid (o - 16)
  else if o < 18 then leByte x.iNlinks (o - 17)
  else if o < 20 then leByte x.pad18 (o - 18)
  else if o < 72 then leByte (x.iZones ((o - 20) / 4)) ((o - 20) % 4)
  else if o < 76 then leByte x.iAtime (o - 72)
  else if o < 80 then leByte x.iCtime (o - 76)
  else if o < 82 then leByte x.iDev (o - 80)
  else if o < 84 then leByte x.iCount (o - 82)
  else if o < 85 then leByte x.iLock (o - 84)
  else if o < 86 then leByte x.iDirt (o - 85)
  else if o < 87 then leByte x.iPipe (o - 86)
  else if o < 88 then leByte x.iMount (o - 87)
  else if o < 89 then leByte x.iSeek (o - 88)
  else if o < 90 then leByte x.iUpdate (o - 89)
  else if o < 92 then leByte x.pad90 (o - 90)
  else if o < 96 then leByte x.tagPrev (o - 92)
  else leByte x.tagNext (o - 96)

abbrev Inode.setSize (x : Inode) (size : Nat) : Inode := { x with iSize := size }

/-- Set one element of `i_zones`. -/
abbrev Inode.setZone (x : Inode) (k v : Nat) : Inode :=
  { x with iZones := fun i => if i = k then v else x.iZones i }

/-- `struct dir_entry`, 24 bytes; `filename` is zero from index 16 on. -/
structure DirEntry where
  filename : Store
  iNo : Nat
  fType : Nat

/-- Entry `i` of a buffer of directory entries. -/
def entryAt (buf : Store) (i : Nat) : DirEntry where
  filename j := if j < 16 then buf (24 * i + j) else 0
  iNo := le32 buf (24 * i + 16)
  fType := le32 buf (24 * i + 20)

def DirEntry.toBytes (e : DirEntry) : Store := fun j =>
  if j < 16 then e.filename j
  else if j < 20 then leByte e.iNo (j - 16)
  else leByte e.fType (j - 20)

/-- A C string without its terminator. -/
abbrev Name := List Byte

/-- `strcmp(s, name) == 0`. -/
def strEq (s : Store) : Name → Bool
  | [] => s 0 == 0
  | c :: cs => s 0 == c && strEq (fun i => s (i + 1)) cs

def dot : Name := [46#8]

def dotDot : Name := [46#8, 46#8]

def slash : Byte := 47#8

structure Dir where
  inode : Option Nat
  dirPos : Nat
  dirBuf : Store

structure File where
  fdPos : Nat
  fdFlag : Nat
  fdInode : Option Nat

/-- What the file system takes from outside: which of the following `sys_malloc` calls succeed,
the bytes of uninitialised or foreign memory it reads, and the string that continues behind a
heap block without a terminator. -/
structure Env where
  malloc : Nat → Bool
  junk : Nat → Store
  tail : Nat → Name

/-- In-core inodes and open directories are objects at heap addresses; `dirs 0` is `root_dir`.
`isProcess` is `cur->pgdir != NULL`. -/
structure State where
  disk : Store
  sb : SuperBlock
  zoneBitmap : Bitmap
  inodeBitmap : Bitmap
  inodes : Nat → Option Inode
  openInodes : List Nat
  dirs : Nat → Option Dir
  fileTable : Nat → File
  fdTable : Nat → Option Nat
  cwdInodeNr : Nat
  isProcess : Bool
  next : Nat
  gFtLock : Nat
  env : Env

inductive Stop where
  | panic | fault
  deriving DecidableEq, Repr

abbrev M := Prog Stop State

def rootDir : Nat := 0

/-- The machine before anything is mounted: an empty disk, zeroed globals, and as much memory as
anyone asks for. -/
def State.boot : State where
  disk := fun _ => 0
  sb := ⟨0, 0, 0, 0, 0, 0, 0, 0, 0, 0, 0, 0⟩
  zoneBitmap := ⟨fun _ => 0, 0⟩
  inodeBitmap := ⟨fun _ => 0, 0⟩
  inodes := fun _ => none
  openInodes := []
  dirs := fun _ => none
  fileTable := fun _ => { fdPos := 0, fdFlag := 0, fdInode := none }
  fdTable := fun fd => if fd < 3 then some fd else none
  cwdInodeNr := 0
  isProcess := false
  next := 1
  gFtLock := 0
  env := { malloc := fun _ => true, junk := fun _ _ => 0, tail := fun _ => [] }

namespace State

abbrev setDisk (s : State) (disk : Store) : State := { s with disk := disk }

abbrev putInode (s : State) (p : Nat) (x : Option Inode) : State :=
  { s with inodes := Function.update s.inodes p x }

abbrev putDir (s : State) (d : Nat) (x : Option Dir) : State :=
  { s with dirs := Function.update s.dirs d x }

abbrev putFile (s : State) (g : Nat) (f : File) : State :=
  { s with fileTable := Function.update s.fileTable g f }

abbrev setZoneMap (s : State) (b : Bitmap) : State := { s with zoneBitmap := b }

abbrev setInodeMap (s : State) (b : Bitmap) : State := { s with inodeBitmap := b }

abbrev nextMalloc (s : State) : State :=
  { s with env := { s.env with malloc := fun k => s.env.malloc (k + 1) } }

abbrev nextJunk (s : State) : State :=
  { s with env := { s.env with junk := fun k => s.env.junk (k + 1) } }

abbrev nextTail (s : State) : State :=
  { s with env := { s.env with tail := fun k => s.env.tail (k + 1) } }

end State

/-! ## Memory -/

/-- Does the next `sys_malloc` of `size` bytes succeed? -/
def sysMalloc (size : Nat) : M Bool := fun s =>
  if size = 0 then .ok (false, s) else .ok (s.env.malloc 0, s.nextMalloc)

/-- A `sys_malloc` whose result is used without a test. -/
def mustMalloc (size : Nat) : M Unit := do
  let ok ← sysMalloc size
  Prog.check (ok = true) .fault

/-- Bytes nothing has written. -/
def readJunk : M Store := fun s =>
  .ok (s.env.junk 0, s.nextJunk)

/-- What a string runs on into when its block holds no terminator. -/
def readTail : M Name := fun s =>
  .ok ((s.env.tail 0).takeWhile (· ≠ 0), s.nextTail)

def inodeAt (p : Nat) : M Inode := do
  let s ← Prog.get
  Prog.need (s.inodes p) .fault

def setInode (p : Nat) (x : Inode) : M Unit :=
  Prog.modify fun s => s.putInode p (some x)

def freeInode (p : Nat) : M Unit :=
  Prog.modify fun s => s.putInode p none

/-- Place a fresh in-core inode. -/
def newInodeObject (x : Inode) : M Nat := fun s =>
  .ok (s.next, { s.putInode s.next (some x) with next := s.next + 1 })

def dirAt (d : Nat) : M Dir := do
  let s ← Prog.get
  Prog.need (s.dirs d) .fault

def setDir (d : Nat) (x : Dir) : M Unit :=
  Prog.modify fun s => s.putDir d (some x)

def newDirObject (x : Dir) : M Nat := fun s =>
  .ok (s.next, { s.putDir s.next (some x) with next := s.next + 1 })

/-- The in-core inode behind a `struct dir *`. -/
def dirInode (d : Nat) : M Nat := do
  let x ← dirAt d
  Prog.need x.inode .fault

def fileAt (g : Nat) : M File := do
  let s ← Prog.get
  pure (s.fileTable g)

def setFile (g : Nat) (f : File) : M Unit :=
  Prog.modify fun s => s.putFile g f

/-! ## The disk -/

/-- The last sector `core/device/ide.c` accepts. -/
def maxLba : Nat := 80 * 1024 * 1024 / 512 - 1

/-- Bytes `[0, 512 * cnt)` of the buffer `ide_read` fills; the buffer was zero before. -/
def sectors (disk : Store) (lba cnt : Nat) : Store := fun i =>
  if i < 512 * cnt then disk (512 * lba + i) else 0

def ideRead (lba cnt : Nat) : M Store := do
  Prog.check (0 < cnt ∧ lba + cnt ≤ maxLba + 1) .panic
  let s ← Prog.get
  pure (sectors s.disk lba cnt)

def ideWrite (lba : Nat) (buf : Store) (cnt : Nat) : M Unit := do
  Prog.check (0 < cnt ∧ lba + cnt ≤ maxLba + 1) .panic
  Prog.modify fun s => s.setDisk (patch s.disk (512 * lba) (512 * cnt) buf)

end Frog.Fs
