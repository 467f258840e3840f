import Frog.Fs.Dir

/-!
# Open files

`core/fs/file.c`: the file table, `file_create`, `file_open`, `file_close`, `file_write` and
`file_read`.
-/

namespace Frog.Fs

set_option autoImplicit false
open Bytes

def maxFileOpen : Nat := 128

def maxFilesOpenPerProc : Nat := 32

def maxFileSize : Nat := 512 * 140

def oWronly : Nat := 1

def oRdwr : Nat := 2

def oCreat : Nat := 64

/-- `flags & bit`, for a bit that is a power of two. -/
def hasFlag (flags bit : Nat) : Bool := flags / bit % 2 == 1

/-! ## Descriptors -/

/-- Past the end of `fd_table` lies the rest of the thread's control block. -/
def fdLocal2Global (fd : Nat) : M Nat := do
  let s ← Prog.get
  let g ← if fd < maxFilesOpenPerProc then pure (s.fdTable fd) else do
    let junk ← readJunk
    pure (some (le32 junk 0))
  let g ← Prog.need g .panic
  Prog.check (g < maxFileOpen) .panic
  pure g

/-- A slot without an inode is free. -/
def occupyFileTableSlot : M (Option Nat) := do
  let s ← Prog.get
  pure ((List.range maxFileOpen).find? fun g => (s.fileTable g).fdInode.isNone)

/-- `install_thread_fd`; the first three descriptors are never given out. -/
def installThreadFd (g : Option Nat) : M (Option Nat) := do
  let s ← Prog.get
  match (List.range maxFilesOpenPerProc).find? fun fd => 3 ≤ fd ∧ s.fdTable fd = none with
  | none => pure none
  | some fd =>
    Prog.modify fun s => { s with fdTable := Function.update s.fdTable fd g }
    pure (some fd)

def lockFetch : M Unit := Prog.modify fun s => { s with gFtLock := s.gFtLock + 1 }

def lockRelease : M Unit := Prog.modify fun s => { s with gFtLock := s.gFtLock - 1 }

/-! ## Creating, opening and closing -/

/-- What a freshly allocated, zeroed inode becomes. -/
def zeroInode : Inode := Inode.ofBytes fun _ => 0

def regularInode (inodeNr : Nat) : Inode :=
  { newInode inodeNr zeroInode with iMode := FileType.regular.mode }

/-- The slot is cleared by `memset`. -/
def clearedFile : File := { fdPos := 0, fdFlag := 0, fdInode := none }

/-- `file_create`; `none` is `-1`. The file table's lock stays held when no slot is free, and the
in-core inode starts with `i_count` zero. -/
def fileCreate (parent : Nat) (name : Name) (flag : Nat) : M (Option Nat) := do
  if !(← sysMalloc 1024) then pure none
  else
    match ← inodeBitmapAlloc with
    | none => pure none
    | some inodeNr =>
      if !(← sysMalloc 100) then
        setBit .inodeBitmap inodeNr false
        pure none
      else
        let p ← newInodeObject (regularInode inodeNr)
        let entry ← newDirEntry name inodeNr .regular
        lockFetch
        match ← occupyFileTableSlot with
        | none =>
          freeInode p
          setBit .inodeBitmap inodeNr false
          pure none
        | some g =>
          setFile g { fdPos := 0, fdFlag := flag, fdInode := some p }
          lockRelease
          if ← flushDirEntry parent entry then
            let q ← dirInode parent
            let y ← inodeAt q
            flushInode y
            let x ← inodeAt p
            flushInode x
            flushBitmap .inodeBitmap inodeNr
            listAddOpen p
            installThreadFd (some g)
          else
            setFile g clearedFile
            freeInode p
            setBit .inodeBitmap inodeNr false
            pure none

def fileOpen (inodeNr flags : Nat) : M (Option Nat) := do
  lockFetch
  match ← occupyFileTableSlot with
  | none => pure none
  | some g =>
    let p ← inodeOpen inodeNr
    setFile g { fdPos := 0, fdFlag := flags, fdInode := some p }
    lockRelease
    let x ← inodeAt p
    if (hasFlag flags oWronly || hasFlag flags oRdwr) && x.iLock != 0 then pure none
    else
      if hasFlag flags oWronly || hasFlag flags oRdwr then setInode p { x with iLock := 1 }
      installThreadFd (some g)

/-- `file_close`, and `close_aux` of the device files. -/
def fileClose (g : Nat) : M Unit := do
  let f ← fileAt g
  let p ← Prog.need f.fdInode .fault
  let x ← inodeAt p
  setInode p { x with iLock := 0 }
  inodeClose p
  setFile g { f with fdInode := none }

/-! ## Writing -/

/-- Add to `fd_pos`. -/
def advance (g n : Nat) : M Unit := do
  let f ← fileAt g
  setFile g { f with fdPos := u32 (f.fdPos + n) }

/-- `all_zones` of `file_write` and `file_read`; behind the array lies the stack. -/
def fileZones (x : Inode) (table junk : Store) (k : Nat) : Nat :=
  if k < 140 then zoneArray (directPrefix x) table k else le32 junk (4 * (k - 140))

/-- A buffer behind whose one sector other memory lies. -/
def staged (buf junk : Store) (i : Nat) : Byte := if i < 512 then buf i else junk (i - 512)

/-- How a write is split: `needFilledSz` bytes from offset `restSz` of the zone before
`zoneIdx`, then `chunkCnt` zones from `zoneIdx` on, the last of them `chunkRest` bytes long
unless that is zero. -/
structure WritePlan where
  zoneIdx : Nat
  restSz : Nat
  needFilledSz : Nat
  chunkCnt : Nat
  chunkRest : Nat

def divRoundUp (n d : Nat) : Nat := u32 (n + (d - 1)) / d

/-- The first address that is zero. -/
def firstZero (zones : Nat → Nat) : Nat :=
  ((List.range 140).find? fun k => zones k = 0).getD 140

def writePlan (fdPos iSize count : Nat) (zones : Nat → Nat) : WritePlan :=
  let zoneIdx := divRoundUp fdPos 512
  let append := fdPos = iSize ∧ zones zoneIdx = 0
  let restSz := if append then iSize % 512 else fdPos % 512
  let needFilledSz := if restSz = 0 then 0 else min count (512 - restSz)
  { zoneIdx := if append then firstZero zones else zoneIdx
    restSz := restSz
    needFilledSz := needFilledSz
    chunkCnt :=
      if restSz = 0 then divRoundUp count 512
      else if count ≤ 512 - restSz then 0
      else divRoundUp (count - needFilledSz) 512
    chunkRest := (count - needFilledSz) % 512 }

/-- `write_zone` from offset `w` of the user's buffer; returns the bytes it took, `none` is
`-1`. -/
def writeZone (g : Nat) (buf : Store) (chunkRest lba : Nat) (isLastTurn : Bool) (w : Nat) :
    M (Option Nat) := do
  if 0 < chunkRest ∧ isLastTurn = true then
    if ← sysMalloc 512 then
      ideWrite lba (patch (fun _ => 0) 0 chunkRest fun i => buf (w + i)) 1
      advance g chunkRest
      pure (some chunkRest)
    else pure none
  else
    ideWrite lba (fun i => buf (w + i)) 1
    advance g 512
    pure (some 512)

/-- `rewrite_zone`. A whole zone is written from the address of the cursor, which is a local
variable of `file_write`, and not from where the cursor points. -/
def rewriteZone (g : Nat) (buf : Store) (chunkRest lba : Nat) (isLastTurn : Bool) (w : Nat) :
    M (Option Nat) := do
  if 0 < chunkRest ∧ isLastTurn = true then
    if ← sysMalloc 512 then
      let old ← ideRead lba 1
      ideWrite lba (patch old 0 chunkRest fun i => buf (w + i)) 1
      advance g chunkRest
      pure (some chunkRest)
    else pure none
  else
    let junk ← readJunk
    ideWrite lba junk 1
    advance g 512
    pure (some 512)

/-- The indirect table gets a new address. The table's sector is read as it is on disk, also
when it was allocated a moment ago. -/
def recordIndirect (p idx lba : Nat) : M Bool := do
  if ← sysMalloc 512 then
    let x ← inodeAt p
    let table ← ideRead (x.iZones 12) 1
    Prog.check (idx - 12 < 128) .fault
    ideWrite (x.iZones 12) (patch table (4 * (idx - 12)) 4 (leByte lba)) 1
    pure true
  else pure false

/-- Allocate the zone of index `idx`. At index 12 the zone becomes the indirect table and a
second one is taken. -/
def appendZone (p idx : Nat) : M (Option Nat) := do
  match ← takeFreeZone with
  | none => pure none
  | some lba =>
    if idx < 12 then
      let x ← inodeAt p
      setInode p (x.setZone idx lba)
      pure (some lba)
    else if idx = 12 then
      let x ← inodeAt p
      setInode p (x.setZone 12 lba)
      match ← takeFreeZone with
      | none => pure none
      | some lba =>
        if ← recordIndirect p idx lba then pure (some lba) else pure none
    else if ← recordIndirect p idx lba then pure (some lba) else pure none

/-- The loop over the chunks from chunk `i` on, with `w` bytes written; returns the bytes
written at its end. -/
def writeChunks (g p : Nat) (buf : Store) (zones : Nat → Nat) (plan : WritePlan) (count : Nat) :
    Nat → Nat → Nat → M (Option Nat)
  | 0, _, w => pure (some w)
  | left + 1, i, w => do
    let idx := plan.zoneIdx + i
    let old := zones idx
    let lba ← if old = 0 then appendZone p idx else pure (some old)
    match lba with
    | none => pure none
    | some lba =>
      Prog.check (w ≤ count) .panic
      let done ← (if old = 0 then writeZone else rewriteZone) g buf plan.chunkRest lba (left = 0) w
      match done with
      | none => pure none
      | some n => writeChunks g p buf zones plan count left (i + 1) (w + n)

/-- The part of the zone that is filled before the first whole chunk. Before the first address
lies the stack, too. -/
def fillRest (g : Nat) (buf : Store) (zones : Nat → Nat) (plan : WritePlan) : M Unit :=
  if plan.restSz = 0 then pure ()
  else do
    let junk ← readJunk
    let lba := if plan.zoneIdx = 0 then le32 junk 0 else zones (plan.zoneIdx - 1)
    let ioBuf ← ideRead lba 1
    ideWrite lba (patch ioBuf plan.restSz plan.needFilledSz buf) 1
    advance g plan.needFilledSz

/-- The bytes a call sets out to write. The sum wraps, so the clamp can be missed. -/
def writeCount (fdPos writeLen : Nat) : Nat :=
  if maxFileSize < u32 (fdPos + writeLen) then maxFileSize - fdPos else writeLen

/-- `file_write`; `none` is `-1`. -/
def fileWrite (g : Nat) (buf : Store) (writeLen : Nat) : M (Option Nat) := do
  let f ← fileAt g
  if maxFileSize + 1 ≤ f.fdPos then pure none
  else
    let count := writeCount f.fdPos writeLen
    if !(← sysMalloc 1024) then pure none
    else
      let junk ← readJunk
      let p ← Prog.need f.fdInode .fault
      let x ← inodeAt p
      let table ← if x.iZones 12 = 0 then pure fun _ => 0 else do
        mustMalloc 512
        ideRead (x.iZones 12) 1
      let zones := fileZones x table junk
      let plan := writePlan f.fdPos x.iSize count zones
      fillRest g buf zones plan
      match ← writeChunks g p buf zones plan count plan.chunkCnt 0 plan.needFilledSz with
      | none => pure none
      | some written =>
        let f ← fileAt g
        let x ← inodeAt p
        let x := x.setSize (max f.fdPos x.iSize)
        setInode p x
        flushInode x
        pure (some (u32 written))

/-! ## Reading -/

/-- One turn of the loop of `file_read`: where in the staging buffer it starts and how many
bytes it copies. -/
def readTurn (off rdCountOffset : Nat) (isLastTurn : Bool) : Nat × Nat :=
  if 0 < off then (off, 512 - off)
  else if isLastTurn ∧ rdCountOffset ≠ 0 then (0, rdCountOffset)
  else (0, 512)

/-- The turns from turn `i` on, with `cur` bytes stored; only the first can start inside its
sector. -/
def readChunks (g : Nat) (zones : Nat → Nat) (rdZoneIdx rdCountOffset : Nat) :
    Nat → Nat → Nat → Nat → Store → M Store
  | 0, _, _, _, dest => pure dest
  | left + 1, i, off, cur, dest => do
    let ioBuf ← ideRead (zones (rdZoneIdx + i)) 1
    let turn := readTurn off rdCountOffset (left = 0)
    advance g turn.2
    readChunks g zones rdZoneIdx rdCountOffset left (i + 1) 0 (cur + turn.2)
      (patch dest cur turn.2 fun k => ioBuf (turn.1 + k))

/-- `rd_len`. -/
def readLen (iSize fdPos count : Nat) : Nat := min (u32Sub iSize fdPos) count

/-- `file_read` into the buffer `dest`: the result, `none` for `-1`, and the buffer after it. -/
def fileRead (g : Nat) (dest : Store) (count : Nat) : M (Option Nat × Store) := do
  if !(← sysMalloc 512) then pure (none, dest)
  else
    let f ← fileAt g
    let p ← Prog.need f.fdInode .fault
    let x ← inodeAt p
    let eof := u32 (x.iSize + 1)
    Prog.check (f.fdPos ≤ eof) .panic
    if eof ≤ f.fdPos then pure (none, dest)
    else
      let rdLen := readLen x.iSize f.fdPos count
      let table ← readTable x
      let junk ← readJunk
      let zones := fileZones x table junk
      let rdZoneIdx := f.fdPos / 512
      if 140 ≤ rdZoneIdx then pure (none, dest)
      else
        let off := f.fdPos % 512
        if rdLen < 512 then
          let ioBuf ← ideRead (zones rdZoneIdx) 1
          let behind ← readJunk
          advance g rdLen
          pure (some rdLen, patch dest 0 rdLen fun k => staged ioBuf behind (off + k))
        else
          let dest ← readChunks g zones rdZoneIdx (rdLen % 512) (divRoundUp rdLen 512) 0 off 0 dest
          pure (some rdLen, dest)

end Frog.Fs
