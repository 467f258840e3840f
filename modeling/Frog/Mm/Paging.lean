import Frog.Fs.Types
import Frog.Lib.Effect

/-!
# Pages

`core/mm/memory.c` up to its heap. Memory is physical and reached through the page tables in it, which
the kernel changes through the last entry of the page directory. The kernel's own variables and the
control blocks are kept apart from memory, except for the lists of free blocks. A null pointer is
zero.
-/

namespace Frog.Mm

set_option autoImplicit false
open Bytes Prog
open Fs (u32 u32Sub)

def pgSize : Nat := 4096

/-- `enum mem_pool_type`. -/
inductive PoolType where
  | kernel | user
  deriving DecidableEq

inductive LockName where
  | pool (t : PoolType)
  | pid
  deriving DecidableEq

structure Pool where
  poolBitmap : Bitmap
  phyAddrStart : Nat
  poolSize : Nat

structure VirtualAddr where
  vaddrBitmap : Bitmap
  vaddrStart : Nat

inductive Status where
  | running | ready | waiting | hanging | blocked | died
  deriving DecidableEq

/-- A descriptor -1 is `none`. The tags of the lists are the lists of the state, the block descriptors
lie in memory. -/
structure Tcb where
  selfKstack : Nat
  parentPid : Nat
  pid : Nat
  status : Status
  priority : Nat
  name : List Byte
  ticks : Nat
  elapsedTicks : Nat
  pgdir : Nat
  progressVaddr : VirtualAddr
  fdTable : Nat → Option Nat

/-- `held` is `holder_repeat_nr` for a lock that the running thread holds and zero for one it does not
hold, `iCount` the `i_count` of the inode at an address. `kBlockDescs` and `intrExit` are where the
linker puts them. -/
structure State where
  mem : Store
  cr3 : Nat
  cur : Nat
  tcb : Nat → Tcb
  pool : PoolType → Pool
  kernelViraddr : VirtualAddr
  pidBm : Bitmap
  held : LockName → Nat
  threadAllList : List Nat
  threadReadyList : List Nat
  fileTable : Nat → Fs.File
  iCount : Nat → Nat
  intrOff : Bool
  kBlockDescs : Nat
  intrExit : Nat

/-- `panic` is a failed `ASSERT` or a `PANIC`, `pageFault` an access to an unmapped page. -/
inductive Stop where
  | panic | pageFault
  deriving DecidableEq, Repr

abbrev M := Prog Stop State

/-! ## Memory accesses -/

/-- The entries of both levels count when their lowest bit is set. -/
def translate (mem : Store) (cr3 vaddr : Nat) : Option Nat :=
  let pde := le32 mem (cr3 / pgSize * pgSize + 4 * (vaddr / 2 ^ 22))
  let pte := le32 mem (pde / pgSize * pgSize + 4 * (vaddr / pgSize % 1024))
  if pde % 2 = 1 ∧ pte % 2 = 1 then some (pte / pgSize * pgSize + vaddr % pgSize) else none

def loadByte (vaddr : Nat) : M Byte := do
  let s ← get
  let p ← need (translate s.mem s.cr3 (u32 vaddr)) .pageFault
  pure (s.mem p)

def storeByte (vaddr : Nat) (b : Byte) : M Unit := do
  let s ← get
  let p ← need (translate s.mem s.cr3 (u32 vaddr)) .pageFault
  modify fun s => { s with mem := Function.update s.mem p b }

def loadBytes (vaddr : Nat) : Nat → M Store
  | 0 => pure fun _ => 0
  | n + 1 => do
    let front ← loadBytes vaddr n
    let b ← loadByte (vaddr + n)
    pure (Function.update front n b)

def storeBytes (vaddr : Nat) (src : Store) : Nat → M Unit
  | 0 => pure ()
  | n + 1 => do
    storeBytes vaddr src n
    storeByte (vaddr + n) (src n)

def load32 (vaddr : Nat) : M Nat := do
  let b ← loadBytes vaddr 4
  pure (le32 b 0)

def store32 (vaddr v : Nat) : M Unit := storeBytes vaddr (leByte v) 4

/-- `memset` to zero. -/
def clear (vaddr n : Nat) : M Unit := storeBytes vaddr (fun _ => 0) n

def memcpy (dest src : Nat) : Nat → M Unit
  | 0 => pure ()
  | n + 1 => do
    memcpy dest src n
    let b ← loadByte (src + n)
    storeByte (dest + n) b

/-! ## The kernel's variables -/

def runningThread : M Tcb := do
  let s ← get
  pure (s.tcb s.cur)

def setTcb (a : Nat) (t : Tcb) : M Unit :=
  modify fun s => { s with tcb := Function.update s.tcb a t }

def setPoolBitmap (p : PoolType) (b : Bitmap) : M Unit :=
  modify fun s => { s with pool := Function.update s.pool p { s.pool p with poolBitmap := b } }

/-- A thread that has to wait goes on once it has the lock. -/
def lockFetch (l : LockName) : M Unit :=
  modify fun s => { s with held := Function.update s.held l (s.held l + 1) }

def lockRelease (l : LockName) : M Unit := do
  let s ← get
  check (s.held l ≠ 0) .panic
  modify fun s => { s with held := Function.update s.held l (s.held l - 1) }

/-- `set_value_bitmap`. -/
def setValueBitmap (b : Bitmap) (pos : Nat) (value : Bool) : M Bitmap := do
  check (pos < b.mapBytesLength * 8) .panic
  pure (b.setValue pos value)

def setValues (pos : Nat) (value : Bool) : Nat → Bitmap → M Bitmap
  | 0, b => pure b
  | n + 1, b => do
    let b ← setValues pos value n b
    setValueBitmap b (pos + n) value

/-! ## Free pages -/

def getFreePage (p : PoolType) : M Nat := do
  let s ← get
  match (s.pool p).poolBitmap.findBlock 1 with
  | none => pure 0
  | some pos =>
    let b ← setValueBitmap (s.pool p).poolBitmap pos true
    setPoolBitmap p b
    pure (u32 (pos * pgSize + (s.pool p).phyAddrStart))

/-- The map of the kernel's addresses or of those of the running process. -/
def viraddr (p : PoolType) : M VirtualAddr := do
  let s ← get
  match p with
  | .kernel => pure s.kernelViraddr
  | .user => pure (s.tcb s.cur).progressVaddr

def setVaddrBitmap (p : PoolType) (b : Bitmap) : M Unit := do
  let v ← viraddr p
  match p with
  | .kernel => modify fun s => { s with kernelViraddr := { v with vaddrBitmap := b } }
  | .user => do
    let s ← get
    let t ← runningThread
    setTcb s.cur { t with progressVaddr := { v with vaddrBitmap := b } }

def getFreeVaddress (p : PoolType) (pgCnt : Nat) : M Nat := do
  let v ← viraddr p
  match v.vaddrBitmap.findBlock pgCnt with
  | none => pure 0
  | some pos =>
    let b ← setValues pos true pgCnt v.vaddrBitmap
    setVaddrBitmap p b
    pure (u32 (pos * pgSize + v.vaddrStart))

/-! ## Page tables -/

def ptePtr (vaddr : Nat) : Nat := 0xffc00000 + vaddr / 2 ^ 22 * pgSize + vaddr / pgSize % 1024 * 4

def pdePtr (vaddr : Nat) : Nat := 0xfffff000 + vaddr / 2 ^ 22 * 4

def addrV2p (vaddr : Nat) : M Nat := do
  let pte ← load32 (ptePtr vaddr)
  pure (u32 (pte / pgSize * pgSize + vaddr % pgSize))

def setCr3 (a : Nat) : M Unit := modify fun s => { s with cr3 := a }

/-- `flush_cr3`; a null directory stands for the kernel's. -/
def flushCr3 (pgdir : Nat) : M Unit := do
  if pgdir = 0 then setCr3 0x100000
  else
    let a ← addrV2p pgdir
    setCr3 a

def invalidate : M Unit := do
  let t ← runningThread
  flushCr3 t.pgdir

/-- `PG_US_U | PG_RW_W | PG_P_SET`. -/
def entryOf (phyaddr : Nat) : Nat := phyaddr ||| 7

/-- `put_page` and `put_page_and_flush`, which differ in how they load `cr3` again. The page for a
missing table is used without a test. -/
def putEntry (flush : M Unit) (vaddr phyaddr : Nat) : M Unit := do
  let pde ← load32 (pdePtr vaddr)
  if pde % 2 = 1 then
    -- both values of the old entry's bit lead to the same store
    let _ ← load32 (ptePtr vaddr)
    store32 (ptePtr vaddr) (entryOf phyaddr)
    flush
  else
    let pdePhyaddr ← getFreePage .kernel
    store32 (pdePtr vaddr) (entryOf pdePhyaddr)
    clear (ptePtr vaddr / pgSize * pgSize) pgSize
    let pte ← load32 (ptePtr vaddr)
    check (pte % 2 = 0) .panic
    store32 (ptePtr vaddr) (entryOf phyaddr)

def putPage (vaddr phyaddr : Nat) : M Unit := putEntry invalidate vaddr phyaddr

def putPageAndFlush (vaddr phyaddr pgdir : Nat) : M Unit := putEntry (flushCr3 pgdir) vaddr phyaddr

def removePage (vaddr : Nat) : M Unit := do
  let pte ← load32 (ptePtr vaddr)
  store32 (ptePtr vaddr) (pte &&& 0xfffffffe)

def virtualAddrToPhysicalAddr (vaddr : Nat) : M Nat := do
  let pde ← load32 (pdePtr vaddr)
  check (pde % 2 = 1) .panic
  let pte ← load32 (ptePtr vaddr)
  check (pte % 2 = 1) .panic
  pure (pte / pgSize * pgSize)

/-! ## Mapped pages -/

/-- The loop of `malloc_page`; `false` once a pool has no page left. -/
def putPages (p : PoolType) : Nat → Nat → M Bool
  | 0, _ => pure true
  | pgCnt + 1, vaddr => do
    let phyaddrs ← getFreePage p
    if phyaddrs = 0 then pure false
    else
      putPage vaddr phyaddrs
      putPages p pgCnt (u32 (vaddr + pgSize))

/-- On failure the addresses and the pages that were taken stay taken. -/
def mallocPage (p : PoolType) (pgCnt : Nat) : M Nat := do
  check (0 < pgCnt) .panic
  let vaddrStart ← getFreeVaddress p pgCnt
  if vaddrStart = 0 then pure 0
  else if ← putPages p pgCnt vaddrStart then pure vaddrStart
  else pure 0

def getKernelPage (pgCnt : Nat) : M Nat := do
  lockFetch (.pool .kernel)
  let vaddr ← mallocPage .kernel pgCnt
  if vaddr ≠ 0 then clear vaddr (u32 (pgCnt * pgSize))
  lockRelease (.pool .kernel)
  pure vaddr

/-- With no page left the lock is fetched once more. -/
def getPhyFreePageWithVaddr (p : PoolType) (vaddr childPgdir : Nat) : M Nat := do
  lockFetch (.pool p)
  let pagePhyaddr ← getFreePage p
  if pagePhyaddr = 0 then
    lockFetch (.pool p)
    pure 0
  else
    putPageAndFlush vaddr pagePhyaddr childPgdir
    lockRelease (.pool p)
    pure vaddr

/-- The index is tested as a signed number. -/
def mallocPageWithVaddr (p : PoolType) (vaddrStart : Nat) : M Nat := do
  let cur ← runningThread
  check (cur.pgdir = 0 ∧ p = .kernel ∨ cur.pgdir ≠ 0 ∧ p = .user) .panic
  let v ← viraddr p
  let bitIdx := u32Sub vaddrStart v.vaddrStart / pgSize
  check (bitIdx < 2 ^ 31) .panic
  let b ← setValueBitmap v.vaddrBitmap bitIdx true
  setVaddrBitmap p b
  let phyaddrs ← getFreePage p
  if phyaddrs = 0 then pure 0
  else
    putPage vaddrStart phyaddrs
    pure vaddrStart

/-! ## Giving pages back -/

/-- `free_addr_bitmap`, which lets the position behind the last one pass to `set_value_bitmap`. -/
def freeAddrBitmap (map : Bitmap) (addrStart addr pos pgCnt : Nat) : M Bitmap := do
  check (addrStart ≤ addr) .panic
  check (pos ≤ map.mapBytesLength * 8) .panic
  setValues pos false pgCnt map

def freeVaddress (p : PoolType) (vaddress pgCnt : Nat) : M Unit := do
  let v ← viraddr p
  let pos := u32Sub vaddress v.vaddrStart / pgSize
  let b ← freeAddrBitmap v.vaddrBitmap v.vaddrStart vaddress pos pgCnt
  setVaddrBitmap p b

def freePage (p : PoolType) (phyAddrPage : Nat) : M Unit := do
  let s ← get
  let b ← freeAddrBitmap (s.pool p).poolBitmap (s.pool p).phyAddrStart phyAddrPage
    ((phyAddrPage - (s.pool p).phyAddrStart) / pgSize) 1
  setPoolBitmap p b

def freePages (p : PoolType) : Nat → Nat → M Unit
  | 0, _ => pure ()
  | pgCnt + 1, vaddr => do
    let phyAddr ← virtualAddrToPhysicalAddr vaddr
    freePage p phyAddr
    removePage vaddr
    freePages p pgCnt (u32 (vaddr + pgSize))

def mfreePage (p : PoolType) (vaddr pgCnt : Nat) : M Unit := do
  freeVaddress p vaddr pgCnt
  freePages p pgCnt vaddr

end Frog.Mm
