import Frog.Fs.InodeOps

/-!
# Directories

`core/fs/dir.c`, and `search_file` of `core/fs/fs.c`. A directory's data is 140 zones of 21
entries each; an address of zero stands for a zone that is not allocated, but most loops read
it all the same, which is sector 0 of the disk.
-/

namespace Frog.Fs

set_option autoImplicit false
open Bytes

/-- Entries in a sector. -/
abbrev perSector : Nat := 21

/-- The direct addresses as they are, without the stop at the first zero. -/
def dirZones (x : Inode) (table : Store) : Nat → Nat := zoneArray x.iZones table

def entryOf (name : Name) (inodeNr : Nat) (t : FileType) : DirEntry :=
  { filename := fun j => name.getD j 0, iNo := inodeNr, fType := t.code }

/-- The terminator of the name lies inside `filename`, as asserted. -/
def newDirEntry (name : Name) (inodeNr : Nat) (t : FileType) : M DirEntry := do
  Prog.check (name.length < 16) .panic
  pure (entryOf name inodeNr t)

/-! ## Looking a name up -/

/-- One entry of `search_file`: `none` goes on to the next one. -/
def searchEntry (name : Name) (e : DirEntry) : Option (Option Nat) :=
  if strEq e.filename dot || strEq e.filename dotDot then none
  else if e.iNo = 0 ∧ e.fType = 0 then some none
  else if strEq e.filename name then some (orMinusOne e.iNo)
  else none

def searchSector (name : Name) (buf : Store) : Option (Option Nat) :=
  (List.range perSector).findSome? fun i => searchEntry name (entryAt buf i)

def searchZones (name : Name) (zones : Nat → Nat) : Nat → Nat → M (Option Nat)
  | 0, _ => pure none
  | left + 1, i => do
    let buf ← ideRead (zones i) 1
    match searchSector name buf with
    | some r => pure r
    | none => searchZones name zones left (i + 1)

/-- `search_file`; `none` is its `-1`. -/
def searchFile (d : Nat) (name : Name) : M (Option Nat) := do
  let p ← dirInode d
  let x ← inodeAt p
  let table ← if x.iZones 12 = 0 then pure fun _ => 0 else do
    mustMalloc 512
    ideRead (x.iZones 12) 1
  mustMalloc 512
  searchZones name (dirZones x table) 140 0

/-! ## Open directories -/

def dirOpen (inodeNr : Nat) : M Nat := do
  mustMalloc 520
  let p ← inodeOpen inodeNr
  newDirObject { inode := some p, dirPos := 0, dirBuf := fun _ => 0 }

/-- `sys_free` of the object that is closed. -/
def freeDir (d : Nat) : M Unit :=
  Prog.modify fun s => s.putDir d none

def dirClose (d : Nat) : M Unit :=
  if d = rootDir then pure ()
  else do
    let p ← dirInode d
    inodeClose p
    freeDir d

def openRootDir : M Unit := do
  let p ← inodeOpen 0
  setDir rootDir { inode := some p, dirPos := 0, dirBuf := fun _ => 0 }

/-! ## Adding an entry -/

/-- The test for a free slot in `flush_dir_entry`. -/
def isFree (e : DirEntry) : Bool := e.filename 0 == 0 && e.fType == 0

def freeSlot (buf : Store) : Option Nat :=
  (List.range perSector).find? fun i => isFree (entryAt buf i)

/-- A sector with one slot overwritten. -/
def putEntry (buf : Store) (slot : Nat) (e : DirEntry) : Store := patch buf (24 * slot) 24 e.toBytes

def growSize (p : Nat) : M Unit := do
  let x ← inodeAt p
  setInode p (x.setSize (u32 (x.iSize + 24)))

/-- A failure of `zone_bitmap_alloc` is asserted away. -/
def takeZone : M Nat := do
  let lba ← takeFreeZone
  Prog.need lba .panic

/-- The words of `all_zones + 12` as a sector. -/
def tableBytes (zones : Nat → Nat) : Store := fun o => leByte (zones (12 + o / 4)) (o % 4)

/-- The indirect branch of `flush_dir_entry`. It takes a second zone, and flushes the bit of the first
one again. -/
def flushIndirect (p : Nat) (e : DirEntry) (zones : Nat → Nat) (i lba : Nat) : M Bool := do
  let x ← inodeAt p
  setInode p (x.setZone 12 lba)
  let second ← zoneBitmapAlloc
  let second ← Prog.need second .panic
  let s ← Prog.get
  flushBitmap .zoneBitmap (u32Sub lba s.sb.sDataStartLba)
  let zones' := Function.update zones 12 second
  ideWrite lba (tableBytes zones') 1
  ideWrite (zones' i) (putEntry (fun _ => 0) 0 e) 1
  growSize p
  pure true

/-- The loop of `flush_dir_entry`; `true` is its `0`. A zone taken for a missing one is recorded
only when it is direct, and the loop goes on with the next address; the indirect branch is
taken when the new zone is sector 12 of the disk. -/
def flushZones (p : Nat) (e : DirEntry) (zones : Nat → Nat) : Nat → Nat → M Bool
  | 0, _ => pure false
  | left + 1, i =>
    if zones i = 0 then do
      let lba ← takeZone
      if i < 12 then
        let x ← inodeAt p
        setInode p (x.setZone i lba)
        flushZones p e zones left (i + 1)
      else if lba = 12 then flushIndirect p e zones i lba
      else flushZones p e zones left (i + 1)
    else do
      let buf ← ideRead (zones i) 1
      match freeSlot buf with
      | some slot =>
        ideWrite (zones i) (putEntry buf slot e) 1
        growSize p
        pure true
      | none => flushZones p e zones left (i + 1)

def flushDirEntry (d : Nat) (e : DirEntry) : M Bool := do
  let p ← dirInode d
  let x ← inodeAt p
  let table ← readTable x
  flushZones p e (dirZones x table) 140 0

/-! ## Removing an entry -/

def isDots (e : DirEntry) : Bool := strEq e.filename dot || strEq e.filename dotDot

/-- How many slots are not named `.` or `..`; blank slots count. -/
def zoneLink (buf : Store) : Nat :=
  (List.range perSector).countP fun i => !isDots (entryAt buf i)

/-- The last slot of a sector that holds the number. -/
def lastMatch (buf : Store) (inodeNr : Nat) : Option Nat :=
  (List.range perSector).reverse.find? fun i => (entryAt buf i).iNo == inodeNr

/-- The zone of the found entry holds nothing but `.` and `..`: the bit cleared is that of the
enumerator `ZONE_BITMAP`. Returns `all_zones` as the branch leaves it. -/
def dropZone (p : Nat) (zones : Nat → Nat) (i : Nat) : M (Nat → Nat) := do
  let s ← Prog.get
  setBit .zoneBitmap BitmapType.zoneBitmap.code false
  flushBitmap .zoneBitmap (u32Sub (zones i) s.sb.sDataStartLba)
  let x ← inodeAt p
  if i < 12 then
    setInode p (x.setZone i 0)
    pure zones
  else
    let indirectZonesCnt := (List.range 128).countP fun k => zones (12 + k) ≠ 0
    Prog.check (1 ≤ indirectZonesCnt) .panic
    if 1 < indirectZonesCnt then
      let zones' := Function.update zones i 0
      ideWrite (x.iZones 12) (tableBytes zones') 1
      pure zones'
    else
      let idx := u32Sub (x.iZones 12) s.sb.sDataStartLba
      setBit .zoneBitmap idx false
      flushBitmap .zoneBitmap idx
      setInode p (x.setZone 12 0)
      pure zones

/-- `i_size` loses one entry and the directory's inode is flushed. -/
def shrinkSize (p : Nat) : M Unit := do
  let x ← inodeAt p
  let x := x.setSize (u32Sub x.iSize 24)
  setInode p x
  flushInode x

/-- The loop of `delete_dir_entry`. `found` is `found_entry` as a slot of the buffer; it keeps its
value from one zone to the next. `target_entry` is a null pointer, to which every match is
copied: page 0 is mapped for kernel threads only. -/
def deleteZones (p inodeNr : Nat) :
    Nat → Nat → (Nat → Nat) → Option Nat → M Unit
  | 0, _, _, _ => pure ()
  | left + 1, i, zones, found => do
    let buf ← ideRead (zones i) 1
    let hit := lastMatch buf inodeNr
    let s ← Prog.get
    Prog.check (hit = none ∨ s.isProcess = false) .fault
    match hit.or found with
    | none => deleteZones p inodeNr left (i + 1) zones none
    | some slot =>
      let zones' ←
        if zoneLink buf = 0 then dropZone p zones i
        else do
          ideWrite (zones i) (patch buf (24 * slot) 24 fun _ => 0) 1
          pure zones
      shrinkSize p
      deleteZones p inodeNr left (i + 1) zones' (some slot)

/-- `pdir` may be a copy on the stack of the caller. -/
def deleteDirEntry (pdir : Dir) (inodeNr : Nat) : M Unit := do
  let p ← Prog.need pdir.inode .fault
  let x ← inodeAt p
  let zones ← inodeAllZones x
  deleteZones p inodeNr 140 0 zones none

/-! ## Enumeration -/

/-- A blank entry for `read_dir`. -/
def isBlank (e : DirEntry) : Bool := e.iNo == 0 && e.filename 0 == 0

/-- The loops of `read_dir`: a blank entry sends it to the same slot of the next zone, and only
a zone left at its end is followed from slot `entryIdx` too. -/
def readDirZones (d : Nat) (zones : Nat → Nat) (entryIdx : Nat) :
    Nat → Nat → M (Option DirEntry)
  | 0, _ => pure none
  | left + 1, i =>
    if zones i = 0 then pure none
    else do
      let buf ← ideRead (zones i) 1
      let e := entryAt buf entryIdx
      if isBlank e then readDirZones d zones entryIdx left (i + 1)
      else
        let x ← dirAt d
        setDir d { x with dirBuf := patch x.dirBuf 0 24 e.toBytes, dirPos := u32 (x.dirPos + 24) }
        pure (some e)

/-- `read_dir` is entered with an entry index below 21, so the inner loop looks at one entry of
each zone. -/
def readDir (d : Nat) : M (Option DirEntry) := do
  if ← sysMalloc 512 then
    let p ← dirInode d
    let x ← inodeAt p
    let zones ← inodeAllZones x
    let dir ← dirAt d
    let n := dir.dirPos / 24
    readDirZones d zones (n % perSector) (140 - n / perSector) (n / perSector)
  else pure none

def dirIsEmpty (x : Inode) : Bool := x.iSize == 48

/-- `dir_remove`; `false` is its `-1`. -/
def dirRemove (parent : Dir) (child : Nat) : M Bool := do
  let p ← dirInode child
  let x ← inodeAt p
  Prog.check ((List.range 12).all fun k => x.iZones (k + 1) = 0) .panic
  if ← sysMalloc 1024 then
    deleteDirEntry parent x.iNum
    inodeRelease x.iNum
    pure true
  else pure false

end Frog.Fs
