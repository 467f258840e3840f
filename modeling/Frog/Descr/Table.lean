import Frog.Fs.File
import Frog.Lib.Runs

/-!
# The file table and its users

The parts of `core/fs/inode.c`, `core/fs/file.c` and `core/fs/dir.c` that keep in-core inodes and the
slots of `g_file_table`. An object lies at an address that is not used again. What the disk and the
memory allocator answer comes with each call.
-/

namespace Frog.Descr

set_option autoImplicit false
open Prog
open Fs (FileType File Stop hasFlag maxFileOpen maxFilesOpenPerProc)

structure Inode where
  iNum : Nat
  iType : FileType
  iDev : Nat
  iCount : Nat
  iLock : Bool

/-- What `fd_inode` points to. -/
inductive Obj where
  | inode (x : Inode)
  | queue

/-- `page a` is the kernel page in which the address `a` lies; `root` is the in-core inode of
`root_dir`. The pages that were given back are written down in `freed`. -/
structure State where
  heap : Nat → Option Obj
  next : Nat
  page : Nat → Option Nat
  freed : List Nat
  root : Nat
  openInodes : List Nat
  files : Nat → File
  tables : Nat → Nat → Option Nat
  live : List Nat

abbrev M := Prog Stop State

namespace State

def setObj (s : State) (q : Nat) (o : Option Obj) : State :=
  { s with heap := Function.update s.heap q o }

def setFile (s : State) (g : Nat) (f : File) : State :=
  { s with files := Function.update s.files g f }

def setEntry (s : State) (p fd : Nat) (g : Option Nat) : State :=
  { s with tables := Function.update s.tables p (Function.update (s.tables p) fd g) }

end State

/-! ## In-core inodes -/

def inodeAt (q : Nat) : M Inode := fun s =>
  match s.heap q with
  | some (.inode x) => .ok (x, s)
  | _ => .error .fault

def setInode (q : Nat) (x : Inode) : M Unit := modify fun s => s.setObj q (some (.inode x))

def freeObj (q : Nat) : M Unit := modify fun s => s.setObj q none

/-- A `sys_malloc` or `get_kernel_page`. -/
def newObj (o : Obj) : M Nat := fun s =>
  .ok (s.next, { s.setObj s.next (some o) with next := s.next + 1 })

def listAddOpen (q : Nat) : M Unit := modify fun s => { s with openInodes := q :: s.openInodes }

def findOpenInode (nr : Nat) : List Nat → M (Option Nat)
  | [] => pure none
  | q :: qs => do
    let x ← inodeAt q
    if x.iNum = nr then pure (some q) else findOpenInode nr qs

/-- `disk nr` is what the inode table holds. -/
def inodeOpen (disk : Nat → Inode) (nr : Nat) : M Nat := do
  let s ← get
  match ← findOpenInode nr s.openInodes with
  | some q => pure q
  | none =>
    let q ← newObj (.inode { disk nr with iNum := nr, iCount := ((disk nr).iCount + 1) % 65536 })
    listAddOpen q
    pure q

/-- A 16-bit value less one. -/
def dec16 (n : Nat) : Nat := if n = 0 then 65535 else n - 1

/-- An inode that is in no list has null links, which `list_del_init` follows. -/
def inodeClose (q : Nat) : M Unit := do
  let x ← inodeAt q
  if dec16 x.iCount = 0 then
    let s ← get
    check (q ∈ s.openInodes) .fault
    modify fun s => { s with openInodes := s.openInodes.erase q }
    freeObj q
  else
    setInode q { x with iCount := dec16 x.iCount }

/-! ## Directories -/

/-- `none` is `&root_dir`. -/
def dirInode : Option Nat → M Nat
  | some q => pure q
  | none => do
    let s ← get
    pure s.root

def dirClose : Option Nat → M Unit
  | some q => inodeClose q
  | none => pure ()

/-- `search_file` reads the inode of the directory; what it finds comes with the call. -/
def searchFile (d : Option Nat) : M Unit := do
  let q ← dirInode d
  let _ ← inodeAt q

/-! ## Slots and descriptors -/

def setFile (g : Nat) (f : File) : M Unit := modify fun s => s.setFile g f

def fileAt (g : Nat) : M File := do
  let s ← get
  pure (s.files g)

def setEntry (p fd : Nat) (g : Option Nat) : M Unit := modify fun s => s.setEntry p fd g

/-- For the running thread `p`. -/
def fdLocal2Global (p fd : Nat) : M Nat := do
  let s ← get
  check (fd < maxFilesOpenPerProc) .fault
  let g ← need (s.tables p fd) .panic
  check (g < maxFileOpen) .panic
  pure g

def occupyFileTableSlot : M (Option Nat) := do
  let s ← get
  pure ((List.range maxFileOpen).find? fun g => (s.files g).fdInode.isNone)

/-- `g = none` is `-1`, which an entry holds anyway. -/
def installThreadFd (p : Nat) (g : Option Nat) : M (Option Nat) := do
  let s ← get
  match (List.range maxFilesOpenPerProc).find? fun fd => 3 ≤ fd ∧ s.tables p fd = none with
  | none => pure none
  | some fd =>
    setEntry p fd g
    pure (some fd)

/-- `file_close` and `close_aux`. -/
def fileClose (g : Nat) : M Unit := do
  let f ← fileAt g
  let q ← need f.fdInode .fault
  let x ← inodeAt q
  setInode q { x with iLock := false }
  inodeClose q
  setFile g { f with fdInode := none }

end Frog.Descr
