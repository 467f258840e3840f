import Frog.Fs.File
import Frog.Fs.Path

/-!
# System calls

The calls of `core/fs/fs.c` on paths, directories and descriptors, with the special files they
distinguish (`core/device/ps2hid.c`, `core/video/lfbvideo.c`, `core/vfs/packagefs.c`). What a
device, a pipe or a package server does with the data it is sent lies outside the file system.
-/

namespace Frog.Fs

set_option autoImplicit false
open Bytes

def dnoAux : Nat := 1

def dnoLfb : Nat := 4

def dnoPkgfs : Nat := 6

def pipeFlag : Nat := 0xffffff

def clientMark : Nat := 0xdeadbeef

/-! ## Special files -/

/-- `is_char_file`, `is_pkg_file` and `is_dev` look at an inode they open and do not close. -/
def isCharFile (inodeNr : Nat) : M Bool := do
  let p ← inodeOpen inodeNr
  let x ← inodeAt p
  pure (modeType x.iMode == FileType.char.code)

def isPkgFile (inodeNr : Nat) : M Bool := do
  let p ← inodeOpen inodeNr
  let x ← inodeAt p
  pure (modeType x.iMode == FileType.fifo.code)

def isDev (inodeNr devFlag : Nat) : M Bool := do
  let p ← inodeOpen inodeNr
  let x ← inodeAt p
  pure (x.iDev == devFlag)

/-- `O_RDONLY` is zero, so the test of the flags always succeeds. -/
def openAux (inodeNr flags : Nat) : M (Option Nat) := do
  lockFetch
  match ← occupyFileTableSlot with
  | none => pure none
  | some g =>
    let p ← inodeOpen inodeNr
    setFile g { fdPos := 0, fdFlag := flags, fdInode := some p }
    lockRelease
    installThreadFd (some g)

def openLfb (inodeNr flags : Nat) : M (Option Nat) := openAux inodeNr flags

/-- The address of a new server; its queue may be null. -/
def createServer (name : Name) : M Nat := do
  mustMalloc 32
  mustMalloc name.length
  let junk ← readJunk
  pure (le32 junk 0)

def createClient : M Nat := do
  mustMalloc 16
  let junk ← readJunk
  pure (le32 junk 0)

/-- One entry of `search_dir_entry`: a prefix is enough, and a blank name ends its sector. -/
def searchPrefix (name : Name) (buf : Store) : Nat → Nat → Option DirEntry
  | 0, _ => none
  | left + 1, i =>
    let e := entryAt buf i
    if (List.range name.length).all fun j => e.filename j == name.getD j 0 then some e
    else if e.filename 0 = 0 then none
    else searchPrefix name buf left (i + 1)

def searchPrefixZones (name : Name) (zones : Nat → Nat) : Nat → Nat → M (Option DirEntry)
  | 0, _ => pure none
  | left + 1, i => do
    let buf ← ideRead (zones i) 1
    match searchPrefix name buf perSector 0 with
    | some e => pure (some e)
    | none => searchPrefixZones name zones left (i + 1)

/-- The indirect table is read only after thirteen direct addresses, so never. -/
def searchDirEntry (d : Nat) (name : Name) : M (Option DirEntry) := do
  let ok ← sysMalloc 560
  Prog.check (ok = true) .panic
  let p ← dirInode d
  let x ← inodeAt p
  mustMalloc 512
  searchPrefixZones name (fun i => if i < 12 then directPrefix x i else 0) 140 0

def pkgInode (inodeNr target : Nat) : Inode :=
  { (newInode inodeNr zeroInode).setZone 0 target with
    iMode := FileType.fifo.mode, iCount := 1, iDev := dnoPkgfs }

/-- `packagefs_create`; the result is an index of the file table. Nothing of the new inode is
flushed. -/
def packagefsCreate (parent : Nat) (name : Name) (target : Nat) : M (Option Nat) := do
  if !(← sysMalloc 1024) then pure none
  else
    match ← inodeBitmapAlloc with
    | none => pure none
    | some inodeNr =>
      if !(← sysMalloc 100) then
        setBit .inodeBitmap inodeNr false
        pure none
      else
        let p ← newInodeObject (pkgInode inodeNr target)
        let entry ← newDirEntry name inodeNr .fifo
        lockFetch
        match ← occupyFileTableSlot with
        | none =>
          freeInode p
          setBit .inodeBitmap inodeNr false
          pure none
        | some g =>
          let f ← fileAt g
          setFile g { f with fdPos := 0, fdInode := some p }
          lockRelease
          match ← searchDirEntry parent name with
          | some _ =>
            listAddOpen p
            pure (some g)
          | none =>
            if ← flushDirEntry parent entry then
              listAddOpen p
              pure (some g)
            else
              setFile g clearedFile
              freeInode p
              setBit .inodeBitmap inodeNr false
              pure none

/-- `open_pkg` with `O_CREAT`: a failure of `packagefs_create` is installed like an index. -/
def openPkgServer (parent : Nat) (name : Name) : M (Option Nat) := do
  let server ← createServer name
  let g ← packagefsCreate parent name server
  installThreadFd g

def clientInode (client : Nat) : Inode :=
  { zeroInode.setZone 0 client with
    iMode := FileType.fifo.mode, iCount := 1, iDev := dnoPkgfs }

/-- `open_pkg` without `O_CREAT`; the client's inode is in no list. -/
def openPkgClient (inodeNr flags : Nat) : M (Option Nat) := do
  let p ← inodeOpen inodeNr
  let _ ← inodeAt p
  let client ← createClient
  lockFetch
  match ← occupyFileTableSlot with
  | none => pure none
  | some g =>
    mustMalloc 100
    let p ← newInodeObject (clientInode client)
    setFile g { fdPos := clientMark, fdFlag := flags, fdInode := some p }
    lockRelease
    installThreadFd (some g)

/-! ## Opening and closing -/

/-- The last character; in front of an empty path lies other memory. -/
def lastChar (pathname : Name) : M Byte :=
  match pathname.getLast? with
  | some c => pure c
  | none => do
    let before ← readJunk
    pure (before 0)

/-- The walk of `sys_open`, which closes each directory once the next name is looked up. -/
def openWalk : Nat → List Name → M (Option Nat)
  | d, [] => pure (some d)
  | d, name :: names => do
    match ← searchFile d name with
    | none =>
      dirClose d
      pure none
    | some inodeNr =>
      dirClose d
      let next ← dirOpen inodeNr
      openWalk next names

/-- The slots of `dirs_path` from `depth - 2` down to the first. -/
def walkNames (dirs : List Name) (depth : Nat) : List Name :=
  (List.range (depth - 1)).reverse.map fun i => dirs.getD i []

/-- The directory in which `sys_open` looks for the last name, and that name. -/
def openDir (pathname : Name) : M (Option (Nat × Name)) := do
  let path ← mustCopyPath pathname
  let (_, lastName) ← pathPeel path
  let depth ← pathDepth pathname
  if depth ≤ 1 then pure (some (rootDir, lastName))
  else
    mustMalloc (16 * depth)
    match ← pathDirs pathname depth with
    | none => pure none
    | some dirs =>
      match ← openWalk rootDir (walkNames dirs depth) with
      | none => pure none
      | some d => pure (some (d, lastName))

def devPkg : Name := [47#8, 100#8, 101#8, 118#8, 47#8, 112#8, 107#8, 103#8]

/-- The file is there and `O_CREAT` is not given. -/
def openExisting (inodeNr flags : Nat) : M (Option Nat) := do
  if ← isCharFile inodeNr then
    if ← isDev inodeNr dnoAux then openAux inodeNr flags
    else if ← isDev inodeNr dnoLfb then openLfb inodeNr flags
    else openAux inodeNr flags
  else if ← isPkgFile inodeNr then openPkgClient inodeNr flags
  else fileOpen inodeNr flags

/-- The file is not there and `O_CREAT` is given. -/
def openNew (pathname : Name) (dir : Nat) (lastName : Name) (flags : Nat) : M (Option Nat) := do
  let fd ←
    if pathname.take 8 = devPkg then openPkgServer dir lastName
    else fileCreate dir lastName flags
  dirClose dir
  pure fd

/-- `sys_open`; `none` is `-1`. -/
def sysOpen (pathname : Name) (flags : Nat) : M (Option Nat) := do
  let c ← lastChar pathname
  if c = slash then pure none
  else
    match ← openDir pathname with
    | none => pure none
    | some (dir, lastName) =>
      match ← searchFile dir lastName with
      | none =>
        if hasFlag flags oCreat then openNew pathname dir lastName flags
        else
          dirClose dir
          pure none
      | some inodeNr =>
        if hasFlag flags oCreat then
          dirClose dir
          pure none
        else openExisting inodeNr flags

/-- `sys_close`; `false` is `-1`. `close_pipe` works on a copy of the slot, and the descriptor of
a character device is not taken back. -/
def sysClose (fd : Int) : M Bool := do
  if fd ≤ 2 then pure false
  else
    let g ← fdLocal2Global fd.toNat
    let f ← fileAt g
    if f.fdFlag = pipeFlag then pure true
    else
      let p ← Prog.need f.fdInode .fault
      let x ← inodeAt p
      fileClose g
      if modeType x.iMode = FileType.char.code then pure true
      else
        Prog.check (fd.toNat < maxFilesOpenPerProc) .fault
        Prog.modify fun s => { s with fdTable := Function.update s.fdTable fd.toNat none }
        pure true

/-- What a device returns. -/
def deviceResult : M (Option Nat) := do
  let junk ← readJunk
  pure (orMinusOne (le32 junk 0))

/-- `sys_write`. The standard output goes through a buffer of 1024 bytes. -/
def sysWrite (fd : Int) (buf : Store) (count : Nat) : M (Option Nat) := do
  if fd < 0 then pure none
  else
    let g ← fdLocal2Global fd.toNat
    let f ← fileAt g
    if f.fdFlag = pipeFlag then deviceResult
    else if fd = 1 then
      Prog.check (count ≤ 1024) .fault
      pure (some count)
    else
      let p ← Prog.need f.fdInode .fault
      let x ← inodeAt p
      if modeType x.iMode = FileType.char.code ∨ modeType x.iMode = FileType.fifo.code then
        deviceResult
      else if hasFlag f.fdFlag oWronly || hasFlag f.fdFlag oRdwr then fileWrite g buf count
      else pure none

/-! ## Removing and making names -/

/-- Does a slot from `i` on hold an inode of that number? -/
def slotHolds (inodeNr : Nat) : Nat → Nat → M Bool
  | 0, _ => pure false
  | left + 1, i => do
    let f ← fileAt i
    match f.fdInode with
    | none => slotHolds inodeNr left (i + 1)
    | some p =>
      let x ← inodeAt p
      if x.iNum = inodeNr then pure true else slotHolds inodeNr left (i + 1)

/-- `sys_unlink`; `false` is `-1`. -/
def sysUnlink (pathname : Name) : M Bool := do
  if !(← sysMalloc 1024) then pure false
  else if !(← sysMalloc 520) then pure false
  else
    let pdir ← newDirObject { inode := none, dirPos := 0, dirBuf := fun _ => 0 }
    let (found, parent) ← searchFileWithPathname pathname
    match parent with
    | none => pure ()
    | some dir => setDir pdir dir
    match found with
    | none =>
      dirClose pdir
      pure false
    | some inodeNr =>
      let p ← inodeOpen inodeNr
      if ← slotHolds inodeNr maxFileOpen 0 then
        dirClose pdir
        pure false
      else
        let x ← inodeAt p
        if x.iNlinks = 0 then
          let dir ← dirAt pdir
          deleteDirEntry dir inodeNr
          inodeRelease inodeNr
          dirClose pdir
          pure true
        else
          setInode p { x with iNlinks := x.iNlinks - 1 }
          flushInode { x with iNlinks := x.iNlinks - 1 }
          dirClose pdir
          pure false

/-- The first sector of a new directory. -/
def dotsSector (self parent : Nat) : Store :=
  putEntry (putEntry (fun _ => 0) 0 (entryOf dot self .directory)) 1
    (entryOf dotDot parent .directory)

/-- The new inode is a local variable: what `new_inode` does not set is whatever the stack
held. -/
def newDirInode (inodeNr lba : Nat) (junk : Store) : Inode :=
  { (newInode inodeNr (Inode.ofBytes junk)).setZone 0 lba with
    iMode := FileType.directory.mode, iSize := 48 }

/-- `sys_mkdir` once the name is known to be new in the directory `pdir`. -/
def makeDir (pdir : Nat) (lastName : Name) : M Bool := do
  let junk ← readJunk
  match ← inodeBitmapAlloc with
  | none =>
    dirClose pdir
    pure false
  | some inodeNr =>
    match ← zoneBitmapAlloc with
    | none =>
      setBit .inodeBitmap inodeNr false
      dirClose pdir
      pure false
    | some lba =>
      let s ← Prog.get
      let idx := u32Sub lba s.sb.sDataStartLba
      Prog.check (idx ≠ 0) .panic
      flushBitmap .zoneBitmap idx
      let q ← dirInode pdir
      let y ← inodeAt q
      ideWrite lba (dotsSector inodeNr y.iNum) 1
      let entry ← newDirEntry lastName inodeNr .directory
      if ← flushDirEntry pdir entry then
        let y ← inodeAt q
        flushInode y
        flushInode (newDirInode inodeNr lba junk)
        flushBitmap .inodeBitmap inodeNr
        dirClose pdir
        pure true
      else
        setBit .zoneBitmap idx false
        setBit .inodeBitmap inodeNr false
        dirClose pdir
        pure false

/-- `sys_mkdir`; `false` is `-1`. -/
def sysMkdir (pathname : Name) : M Bool := do
  if !(← sysMalloc 1024) then pure false
  else
    match ← copyPath pathname with
    | none => pure false
    | some tmpPath =>
      let (parentPath, lastName) ← pathPeel tmpPath
      let pdir ←
        if parentPath = [slash] then pure (some rootDir)
        else do
          let (found, _) ← searchFileWithPathname parentPath
          match found with
          | none => pure none
          | some inodeNr => do
            let d ← dirOpen inodeNr
            pure (some d)
      match pdir with
      | none => pure false
      | some pdir =>
        match ← searchFile pdir lastName with
        | some _ => pure false
        | none => makeDir pdir lastName

/-- `sys_rmdir`: the directory that is tested for emptiness is the parent. -/
def sysRmdir (pathname : Name) : M Bool := do
  let (found, parent) ← searchFileWithPathname pathname
  match found with
  | none => pure false
  | some inodeNr =>
    let parent ← Prog.need parent .fault
    let target ← dirOpen inodeNr
    let q ← Prog.need parent.inode .fault
    let y ← inodeAt q
    if dirIsEmpty y then dirRemove parent target else pure false

/-! ## Directory streams, `stat` and `chdir` -/

/-- `sys_opendir`; `none` is a null pointer. The first block is lost when the search succeeds. -/
def sysOpendir (name : Name) : M (Option Nat) := do
  if name = [slash] then pure (some rootDir)
  else
    let _ ← sysMalloc 520
    let (found, _) ← searchFileWithPathname name
    match found with
    | none => pure none
    | some inodeNr =>
      let d ← dirOpen inodeNr
      pure (some d)

def sysClosedir (dirp : Option Nat) : M Bool :=
  match dirp with
  | none => pure false
  | some d => do
    dirClose d
    pure true

def sysReaddir (dirp : Option Nat) : M (Option DirEntry) := do
  let d ← Prog.need dirp .panic
  readDir d

def sysRewinddir (d : Nat) : M Unit := do
  let x ← dirAt d
  setDir d { x with dirPos := 0 }

def sysChdir (pathname : Name) : M Bool := do
  let (found, _) ← searchFileWithPathname pathname
  match found with
  | none => pure false
  | some inodeNr =>
    let p ← inodeOpen inodeNr
    let x ← inodeAt p
    if modeType x.iMode % 16 = FileType.directory.code then
      Prog.modify fun s => { s with cwdInodeNr := inodeNr }
      pure true
    else pure false

structure Stat where
  stIno : Nat
  stMode : Nat
  stNlink : Nat
  stSize : Nat
  stZones : Nat

/-- Word `k` from `i_zones[0]` on; the list links and the memory behind the inode are not known. -/
def zoneWord (x : Inode) (junk : Store) (k : Nat) : Nat :=
  if k < 18 then le32 x.toBytes (20 + 4 * k) else le32 junk (4 * k)

def statOf (inodeNr : Nat) (x : Inode) (junk : Store) (extra : Nat) : Stat where
  stIno := inodeNr
  stMode := x.iMode
  stNlink := x.iNlinks
  stSize := x.iSize
  stZones := firstZero (zoneWord x junk) + extra

def dotPaths : List Name := [[slash], slash :: dot, slash :: dotDot]

def sysStat (pathname : Name) : M (Option Stat) := do
  if pathname ∈ dotPaths then
    let p ← dirInode rootDir
    let x ← inodeAt p
    let junk ← readJunk
    pure (some (statOf 0 x junk 0))
  else
    let (found, _) ← searchFileWithPathname pathname
    match found with
    | none => pure none
    | some inodeNr =>
      let p ← inodeOpen inodeNr
      let x ← inodeAt p
      let junk ← readJunk
      pure (some (statOf inodeNr x junk 1))

end Frog.Fs
