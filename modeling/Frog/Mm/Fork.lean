import Frog.Fs.Syscalls
import Frog.Mm.Heap

/-!
# Forking a process

`core/thread/fork.c` with the pages it takes, `create_page_dir` of `core/thread/process.c` and
`allocate_pid` of `core/thread/threads.c`.
-/

namespace Frog.Mm

set_option autoImplicit false
open Bytes Prog
open Fs (u32 u32Sub maxFileOpen maxFilesOpenPerProc pipeFlag)

def userVaddrStart : Nat := 0x08000000

/-- `(uint_32) -1`. -/
def minusOne : Nat := 2 ^ 32 - 1

/-! ## Pids -/

def pidStart : Nat := 1

/-- The -1 of a full map is an index that `set_value_bitmap` does not take. -/
def forkPid : M Nat := do
  lockFetch .pid
  let s ← get
  let pos ← need (s.pidBm.findBlock 1) .panic
  let b ← setValueBitmap s.pidBm pos true
  modify fun s => { s with pidBm := b }
  lockRelease .pid
  pure (u32 (pidStart + pos))

/-! ## The child's control block -/

/-- `bitmap_pg_cnt`. -/
def bitmapPgCnt : Nat := (((0xc0000000 - userVaddrStart) / pgSize + 7) / 8 + (pgSize - 1)) / pgSize

/-- `"_fork"`. -/
def forkSuffix : List Byte := [95#8, 102#8, 111#8, 114#8, 107#8]

/-- The map of the user's addresses is copied with the control block; what is left is to find the
pages for it. -/
def copyTcbVaddrbitmapStack0 (child parent : Nat) : M Bool := do
  memcpy child parent pgSize
  let s ← get
  let p := s.tcb parent
  setTcb child p
  let pid ← forkPid
  setTcb child { p with
    pid := pid
    elapsedTicks := 0
    status := .ready
    ticks := p.priority
    parentPid := p.pid }
  blockDescInit (uBlockDescs child) descCnt 0 16
  let vaddrBtmp ← getKernelPage bitmapPgCnt
  if vaddrBtmp = 0 then pure false
  else
    let s ← get
    let c := s.tcb child
    check (c.name.length < 11) .panic
    setTcb child { c with name := c.name ++ forkSuffix }
    pure true

/-- The kernel's part of the directory in use is copied. -/
def createPageDir : M Nat := do
  let pageDirVaddr ← getKernelPage 1
  if pageDirVaddr = 0 then pure 0
  else
    memcpy (pageDirVaddr + 0x300 * 4) (0xfffff000 + 0x300 * 4) 1024
    let newPageDirPhyAddr ← addrV2p pageDirVaddr
    store32 (pageDirVaddr + 4 * 1023) (entryOf newPageDirPhyAddr)
    pure pageDirVaddr

/-! ## The child's memory -/

/-- `page_dir_activate`. -/
def pageDirActivate (thread : Nat) : M Unit := do
  let s ← get
  flushCr3 (s.tcb thread).pgdir

/-- That no page was left goes unnoticed. -/
def copyPage (child parent bufPage progVaddr : Nat) : M Unit := do
  memcpy bufPage progVaddr pgSize
  pageDirActivate child
  let s ← get
  let _ ← getPhyFreePageWithVaddr .user progVaddr (s.tcb child).pgdir
  memcpy progVaddr bufPage pgSize
  pageDirActivate parent

/-- One bit of the parent's map. -/
def copyBit (child parent bufPage : Nat) (v : VirtualAddr) (idx : Nat) : M Unit :=
  if v.vaddrBitmap.getValue idx then
    copyPage child parent bufPage (u32 (idx * pgSize + v.vaddrStart))
  else pure ()

/-- The pages from bit `idx` of the parent's map on. -/
def copyPages (child parent bufPage : Nat) (v : VirtualAddr) : Nat → Nat → M Unit
  | 0, _ => pure ()
  | left + 1, idx => do
    copyBit child parent bufPage v idx
    copyPages child parent bufPage v left (idx + 1)

def copyBodyStack3 (child parent bufPage : Nat) : M Unit := do
  let s ← get
  let v := (s.tcb parent).progressVaddr
  copyPages child parent bufPage v (v.vaddrBitmap.mapBytesLength * 8) 0

/-- The registers that the interrupt saved at the end of the page, `eax` 32 bytes into them. -/
def buildChildStack (child : Nat) : M Unit := do
  let intr0Stack := child + pgSize - 76
  store32 (intr0Stack + 32) 0
  let s ← get
  store32 (intr0Stack - 4) s.intrExit
  setTcb child { s.tcb child with selfKstack := intr0Stack - 20 }

/-! ## Open files -/

/-- `is_pipe`, which looks into the table of the running thread. -/
def isPipe (fd : Nat) : M Bool := do
  let t ← runningThread
  let g ← need (t.fdTable fd) .panic
  check (g < maxFileOpen) .panic
  let s ← get
  pure ((s.fileTable g).fdFlag == pipeFlag)

def updateOpenCnt (fd g : Nat) : M Unit := do
  check (g < maxFileOpen) .panic
  if ← isPipe fd then
    let s ← get
    let f := s.fileTable g
    let f := { f with fdPos := u32 (f.fdPos + 1) }
    modify fun s => { s with fileTable := Function.update s.fileTable g f }
  else
    let s ← get
    let q ← need (s.fileTable g).fdInode .pageFault
    modify fun s => { s with iCount := Function.update s.iCount q ((s.iCount q + 1) % 65536) }

def updateInodeOpenCnts (thread : Nat) : Nat → Nat → M Unit
  | 0, _ => pure ()
  | left + 1, fd => do
    let s ← get
    match (s.tcb thread).fdTable fd with
    | none => pure ()
    | some g => updateOpenCnt fd g
    updateInodeOpenCnts thread left (fd + 1)

/-! ## `sys_fork` -/

/-- The rest of `copy_process` for a child that has a page directory. -/
def fillChild (child parent bufPage : Nat) : M Bool := do
  copyBodyStack3 child parent bufPage
  buildChildStack child
  updateInodeOpenCnts child (maxFilesOpenPerProc - 3) 3
  mfreePage .kernel bufPage 1
  pure true

/-- `false` is -1. Nothing that was done is undone then. -/
def copyProcess (child parent : Nat) : M Bool := do
  let bufPage ← getKernelPage 1
  if bufPage = 0 then pure false
  else
    let copied ← copyTcbVaddrbitmapStack0 child parent
    if copied = false then pure false
    else
      let pgdir ← createPageDir
      let s ← get
      setTcb child { s.tcb child with pgdir := pgdir }
      if pgdir = 0 then pure false else fillChild child parent bufPage

/-- `list_find_element` does not compare the last element. -/
def linkChild (child : Nat) : M Unit := do
  let s ← get
  check (child ∉ s.threadAllList.dropLast) .panic
  modify fun s => { s with threadAllList := s.threadAllList ++ [child] }
  check (child ∉ s.threadReadyList.dropLast) .panic
  modify fun s => { s with threadReadyList := s.threadReadyList ++ [child] }

def sysFork : M Nat := do
  let s ← get
  let child ← getKernelPage 1
  if child = 0 then pure minusOne
  else
    check (s.intrOff = true ∧ (s.tcb s.cur).pgdir ≠ 0) .panic
    let copied ← copyProcess child s.cur
    if copied = false then pure minusOne
    else
      linkChild child
      let s ← get
      pure (s.tcb child).pid

end Frog.Mm
