import Frog.Descr.Table
import Frog.Fs.Syscalls

/-!
# Calls on descriptors

`sys_open` and `sys_close` of `core/fs/fs.c` with what they call, `core/fs/pipe.c`,
`update_inode_open_cnts` of `core/thread/fork.c` and `release_proc_resource` of
`core/thread/exit.c`, as far as they touch descriptors, slots and in-core inodes.
-/

namespace Frog.Descr

set_option autoImplicit false
open Prog
open Fs (FileType File Stop hasFlag maxFileOpen maxFilesOpenPerProc oCreat oWronly oRdwr
  pipeFlag clientMark dnoAux dnoLfb dnoPkgfs clearedFile)

/-- What the last name of a path leads to. -/
inductive Target where
  /-- A directory on the way is missing. -/
  | lost
  /-- The name is new; `pkg` says that the path starts with `/dev/pkg`. -/
  | absent (pkg : Bool)
  | found (nr : Nat)

/-- What the disk answers to `sys_open`: the directories on the way, from the first below the root,
the target, and the inode table. -/
structure Lookup where
  dirs : List Nat
  target : Target
  disk : Nat → Inode

/-- What a call that makes a file is given: a buffer, a free inode number, memory for the inode, and
a place for the directory entry. -/
structure Supply where
  buf : Bool
  number : Option Nat
  room : Bool
  entry : Bool

/-! ## `sys_open` -/

def isCharFile (disk : Nat → Inode) (nr : Nat) : M Bool := do
  let q ← inodeOpen disk nr
  let x ← inodeAt q
  pure (x.iType == .char)

def isPkgFile (disk : Nat → Inode) (nr : Nat) : M Bool := do
  let q ← inodeOpen disk nr
  let x ← inodeAt q
  pure (x.iType == .fifo)

def isDev (disk : Nat → Inode) (nr dev : Nat) : M Bool := do
  let q ← inodeOpen disk nr
  let x ← inodeAt q
  pure (x.iDev == dev)

/-- `open_aux` and `open_lfb`. -/
def openAux (p : Nat) (disk : Nat → Inode) (nr flags : Nat) : M (Option Nat) := do
  match ← occupyFileTableSlot with
  | none => pure none
  | some g =>
    let q ← inodeOpen disk nr
    setFile g { fdPos := 0, fdFlag := flags, fdInode := some q }
    installThreadFd p (some g)

def writes (flags : Nat) : Bool := hasFlag flags oWronly || hasFlag flags oRdwr

/-- The slot stays occupied when the file is being written. -/
def fileOpen (p : Nat) (disk : Nat → Inode) (nr flags : Nat) : M (Option Nat) := do
  match ← occupyFileTableSlot with
  | none => pure none
  | some g =>
    let q ← inodeOpen disk nr
    setFile g { fdPos := 0, fdFlag := flags, fdInode := some q }
    let x ← inodeAt q
    if writes flags then
      if x.iLock then pure none
      else
        setInode q { x with iLock := true }
        installThreadFd p (some g)
    else installThreadFd p (some g)

/-- `open_pkg` without `O_CREAT`; the inode of the client is in no list. -/
def openPkgClient (p : Nat) (disk : Nat → Inode) (nr flags : Nat) : M (Option Nat) := do
  let q ← inodeOpen disk nr
  let _ ← inodeAt q
  match ← occupyFileTableSlot with
  | none => pure none
  | some g =>
    let q ← newObj (.inode ⟨0, .fifo, dnoPkgfs, 1, false⟩)
    setFile g { fdPos := clientMark, fdFlag := flags, fdInode := some q }
    installThreadFd p (some g)

/-- The part that `file_create` and `packagefs_create` share. `x` is the new inode but for its number
and `file` what the slot becomes but for its pointer. -/
def create (u : Supply) (x : Inode) (file : File → File) : M (Option Nat) := do
  if !u.buf then pure none
  else
    match u.number with
    | none => pure none
    | some nr =>
      if !u.room then pure none
      else
        let q ← newObj (.inode { x with iNum := nr })
        match ← occupyFileTableSlot with
        | none =>
          freeObj q
          pure none
        | some g =>
          let f ← fileAt g
          setFile g { file f with fdInode := some q }
          if u.entry then
            listAddOpen q
            pure (some g)
          else
            setFile g clearedFile
            freeObj q
            pure none

/-- A new file starts with `i_count` zero. -/
def fileCreate (p flags : Nat) (u : Supply) : M (Option Nat) := do
  match ← create u ⟨0, .regular, 0, 0, false⟩ fun _ => ⟨0, flags, none⟩ with
  | none => pure none
  | some g => installThreadFd p (some g)

/-- `open_pkg` with `O_CREAT`. The flags of the slot's last user stay. -/
def openPkgServer (p : Nat) (u : Supply) : M (Option Nat) := do
  let g ← create u ⟨0, .fifo, dnoPkgfs, 1, false⟩ fun f => { f with fdPos := 0 }
  installThreadFd p g

/-- Each directory is closed once the next one is found. -/
def openWalk (disk : Nat → Inode) : Option Nat → List Nat → M (Option Nat)
  | d, [] => pure d
  | d, nr :: nrs => do
    searchFile d
    dirClose d
    let q ← inodeOpen disk nr
    openWalk disk (some q) nrs

/-- The file is there and `O_CREAT` is not given; its directory is not closed. -/
def openExisting (p : Nat) (disk : Nat → Inode) (nr flags : Nat) : M (Option Nat) := do
  if ← isCharFile disk nr then
    if ← isDev disk nr dnoAux then openAux p disk nr flags
    else if ← isDev disk nr dnoLfb then openAux p disk nr flags
    else openAux p disk nr flags
  else if ← isPkgFile disk nr then openPkgClient p disk nr flags
  else fileOpen p disk nr flags

/-- `sys_open` on a path that names a file, for the running thread `p`. -/
def sysOpen (p : Nat) (w : Lookup) (flags : Nat) (u : Supply) : M (Option Nat) := do
  let d ← openWalk w.disk none w.dirs
  searchFile d
  match w.target with
  | .lost =>
    dirClose d
    pure none
  | .absent pkg =>
    if hasFlag flags oCreat then
      let fd ← if pkg then openPkgServer p u else fileCreate p flags u
      dirClose d
      pure fd
    else
      dirClose d
      pure none
  | .found nr =>
    if hasFlag flags oCreat then
      dirClose d
      pure none
    else openExisting p w.disk nr flags

/-! ## `sys_pipe` and `sys_fork` -/

/-- Without a free slot `g_file_table[-1]` is written. -/
def sysPipe (p : Nat) (room : Bool) : M Bool := do
  let g ← need (← occupyFileTableSlot) .fault
  if room then
    let q ← newObj .queue
    setFile g { fdPos := 2, fdFlag := pipeFlag, fdInode := some q }
    let _ ← installThreadFd p (some g)
    let _ ← installThreadFd p (some g)
    pure true
  else pure false

/-- One turn of the loop in `update_inode_open_cnts`. -/
def updateOpenCnt (g : Nat) : M Unit := do
  check (g < maxFileOpen) .panic
  let f ← fileAt g
  if f.fdFlag = pipeFlag then setFile g { f with fdPos := Fs.u32 (f.fdPos + 1) }
  else
    let q ← need f.fdInode .fault
    let x ← inodeAt q
    setInode q { x with iCount := (x.iCount + 1) % 65536 }

def updateInodeOpenCnts (c : Nat) : Nat → Nat → M Unit
  | 0, _ => pure ()
  | left + 1, fd => do
    let s ← get
    match s.tables c fd with
    | none => pure ()
    | some g => updateOpenCnt g
    updateInodeOpenCnts c left (fd + 1)

/-- The child `c` gets a copy of the descriptors of `p`. -/
def sysFork (p c : Nat) : M Unit := do
  modify fun s => { s with tables := Function.update s.tables c (s.tables p), live := c :: s.live }
  updateInodeOpenCnts c 29 3

/-! ## `sys_close` and `sys_exit` -/

/-- `mfree_page(MP_KERNEL, a, 1)`: everything in the page of `a` is gone. -/
def mfreePage (a : Option Nat) : M Unit := do
  let q ← need a .panic
  let s ← get
  let n ← need (s.page q) .panic
  modify fun s => { s with
    heap := fun r => if s.page r = some n then none else s.heap r
    freed := s.freed ++ [n] }

/-- `close_pipe` counts down in a copy of the slot. -/
def closePipe (g : Nat) : M Unit := do
  let f ← fileAt g
  if Fs.u32Sub f.fdPos 1 = 0 then mfreePage f.fdInode

/-- `sys_close` for the running thread `p`; `false` is `-1`. -/
def sysClose (p : Nat) (fd : Int) : M Bool := do
  if fd ≤ 2 then pure false
  else
    let g ← fdLocal2Global p fd.toNat
    let f ← fileAt g
    if f.fdFlag = pipeFlag then
      closePipe g
      pure true
    else
      let q ← need f.fdInode .fault
      let x ← inodeAt q
      fileClose g
      if x.iType = .char then pure true
      else
        setEntry p fd.toNat none
        pure true

/-- One turn of the last loop in `release_proc_resource`. -/
def releaseFd (p fd : Nat) : M Unit := do
  let s ← get
  match s.tables p fd with
  | none => pure ()
  | some g =>
    check (g < maxFileOpen) .panic
    let f ← fileAt g
    if f.fdFlag = pipeFlag then
      setFile g { f with fdPos := Fs.u32Sub f.fdPos 1 }
      if Fs.u32Sub f.fdPos 1 = 0 then
        -- the slot is looked up at the descriptor's index
        let wrong ← fileAt fd
        mfreePage wrong.fdInode
        let f ← fileAt g
        setFile g { f with fdInode := none }
    else
      let _ ← sysClose p fd

def releaseFds (p : Nat) : Nat → Nat → M Unit
  | 0, _ => pure ()
  | left + 1, fd => do
    releaseFd p fd
    releaseFds p left (fd + 1)

def sysExit (p : Nat) : M Unit := do
  releaseFds p maxFilesOpenPerProc 0
  modify fun s => { s with live := s.live.erase p }

/-! ## Steps -/

inductive Event where
  | sysOpen (p : Nat) (w : Lookup) (flags : Nat) (u : Supply)
  | sysPipe (p : Nat) (room : Bool)
  | sysFork (p c : Nat)
  | sysClose (p : Nat) (fd : Int)
  | sysExit (p : Nat)

/-- A live process calls. The flags are 8 bits wide, and a child is new. -/
def Enabled (s : State) : Event → Prop
  | .sysOpen p _ flags _ => p ∈ s.live ∧ flags < 256
  | .sysPipe p _ => p ∈ s.live
  | .sysFork p c => p ∈ s.live ∧ c ∉ s.live
  | .sysClose p _ => p ∈ s.live
  | .sysExit p => p ∈ s.live

def doEvent : Event → M Unit
  | .sysOpen p w flags u => do
    let _ ← sysOpen p w flags u
  | .sysPipe p room => do
    let _ ← sysPipe p room
  | .sysFork p c => sysFork p c
  | .sysClose p fd => do
    let _ ← sysClose p fd
  | .sysExit p => sysExit p

/-- A call that returns. -/
def Step (s : State) (e : Event) (t : State) : Prop :=
  Enabled s e ∧ doEvent e s = .ok ((), t)

end Frog.Descr
