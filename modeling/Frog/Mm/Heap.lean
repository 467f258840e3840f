import Frog.Mm.Paging

/-!
# The heap

`sys_malloc` and `sys_free` of `core/mm/memory.c`. Arenas, block descriptors and the lists of free
blocks are words of memory and are reached by address, whatever is there.
-/

namespace Frog.Mm

set_option autoImplicit false
open Bytes Prog
open Fs (u32 u32Sub)

def kHeapStart : Nat := 0xc0100000

def descCnt : Nat := 7

/-! ## Lists -/

/-- `prev` comes first. -/
def listAddTail (node head : Nat) : M Unit := do
  let lastNode ← load32 head
  store32 (lastNode + 4) node
  store32 (node + 4) head
  store32 node lastNode
  store32 head node

def listDelInit (node : Nat) : M Unit := do
  let next ← load32 (node + 4)
  let prev ← load32 node
  store32 next prev
  store32 (prev + 4) next
  store32 (node + 4) 0
  store32 node 0
  store32 (node + 4) node
  store32 node node

def listPop (head : Nat) : M Nat := do
  let target ← load32 (head + 4)
  listDelInit target
  pure target

def listIsEmpty (head : Nat) : M Bool := do
  let next ← load32 (head + 4)
  pure (next == head)

/-! ## Block descriptors -/

/-- `&descs[i]`. -/
def descAt (descs i : Nat) : Nat := u32 (descs + 16 * i)

/-- `&desc->free_list`. -/
def freeList (desc : Nat) : Nat := u32 (desc + 8)

def blockSize (desc : Nat) : M Nat := load32 desc

def blocksPerArena (desc : Nat) : M Nat := load32 (desc + 4)

/-- `offsetof(TCB_t, u_block_descs)`. -/
def uBlockDescs (tcb : Nat) : Nat := tcb + 92

/-- The rest of `block_desc_init` from descriptor `i` on. -/
def blockDescInit (descArray : Nat) : Nat → Nat → Nat → M Unit
  | 0, _, _ => pure ()
  | left + 1, i, size => do
    let desc := descAt descArray i
    store32 desc size
    store32 (desc + 4) ((pgSize - 12) / size)
    store32 (freeList desc + 4) (freeList desc)
    store32 (freeList desc) (freeList desc)
    blockDescInit descArray left (i + 1) (2 * size)

/-- The first descriptor from `i` on whose blocks are large enough, or the index behind the last. -/
def findDesc (descs size : Nat) : Nat → Nat → M Nat
  | 0, i => pure i
  | left + 1, i => do
    let bs ← blockSize (descAt descs i)
    if size ≤ bs then pure i else findDesc descs size left (i + 1)

/-! ## Arenas -/

/-- `arena2block`. -/
def arena2block (a idx : Nat) : M Nat := do
  let desc ← load32 a
  let bs ← blockSize desc
  pure (u32 (a + 12 + idx * bs))

def block2arena (b : Nat) : Nat := b / pgSize * pgSize

/-- A loop over the blocks of an arena, whose number is read again each time. -/
def forBlocks (perArena : M Nat) (a : Nat) (body : Nat → M Unit) : Nat → Nat → M Unit
  | 0, _ => pure ()
  | left + 1, blockIdx => do
    let n ← perArena
    if blockIdx < n then
      let b ← arena2block a blockIdx
      body b
      forBlocks perArena a body left (blockIdx + 1)

/-- Every block of the new arena goes to the free list of its descriptor. -/
def fillArena (area desc : Nat) : M Unit := do
  clear area pgSize
  store32 area desc
  storeByte (area + 8) 0
  let n ← blocksPerArena desc
  store32 (area + 4) n
  forBlocks (blocksPerArena desc) area (fun b => do
    let d ← load32 area
    listAddTail b (freeList d)) (2 ^ 32) 0

/-- An arena of whole pages. -/
def largeArena (p : PoolType) (size : Nat) : M Nat := do
  let pageCnt := u32 (size + 12 + (pgSize - 1)) / pgSize
  let area ← mallocPage p pageCnt
  if area ≠ 0 then
    clear area (u32 (pgSize * pageCnt))
    store32 area 0
    store32 (area + 4) pageCnt
    storeByte (area + 8) 1
    pure (u32 (area + 12))
  else pure 0

/-- Take the first block of the list. -/
def takeBlock (desc : Nat) : M Nat := do
  let block ← listPop (freeList desc)
  let bs ← blockSize desc
  clear block bs
  let area := block2arena block
  let cnt ← load32 (area + 4)
  store32 (area + 4) (u32Sub cnt 1)
  pure block

/-- A block of at most 1024 bytes. -/
def smallBlock (p : PoolType) (descs size : Nat) : M Nat := do
  let i ← findDesc descs size descCnt 0
  let desc := descAt descs i
  if ← listIsEmpty (freeList desc) then
    let area ← mallocPage p 1
    if area = 0 then pure 0
    else
      fillArena area desc
      takeBlock desc
  else takeBlock desc

/-- A kernel thread has no page directory of its own. -/
def poolOf (t : Tcb) : PoolType := if t.pgdir = 0 then .kernel else .user

/-- What `sys_malloc` does under the lock. -/
def allocate (p : PoolType) (descs size : Nat) : M Nat :=
  if 1024 < size then largeArena p size else smallBlock p descs size

def sysMalloc (size : Nat) : M Nat := do
  let s ← get
  let t ← runningThread
  let p := poolOf t
  let descs := if t.pgdir = 0 then s.kBlockDescs else uBlockDescs s.cur
  if ¬ (0 < size ∧ size < (s.pool p).poolSize) then pure 0
  else
    lockFetch (.pool p)
    let r ← allocate p descs size
    lockRelease (.pool p)
    pure r

/-- A block of an arena with a descriptor; the last one gives the page back. -/
def freeBlock (p : PoolType) (block : Nat) : M Unit := do
  let a := block2arena block
  let desc ← load32 a
  listAddTail block (freeList desc)
  let cnt ← load32 (a + 4)
  store32 (a + 4) (u32 (cnt + 1))
  let cnt ← load32 (a + 4)
  let desc ← load32 a
  let n ← blocksPerArena desc
  if cnt = n then
    forBlocks (do
      let d ← load32 a
      blocksPerArena d) a listDelInit (2 ^ 32) 0
    mfreePage p a 1

/-- What `sys_free` does under the lock. -/
def giveBack (p : PoolType) (ptr : Nat) : M Unit := do
  let a := block2arena ptr
  let large ← loadByte (a + 8)
  check (large = 0 ∨ large = 1) .panic
  let desc ← load32 a
  if desc = 0 ∧ large = 1 then
    let cnt ← load32 (a + 4)
    mfreePage p a cnt
  else freeBlock p ptr

def sysFree (ptr : Nat) : M Unit := do
  check (ptr ≠ 0) .panic
  let t ← runningThread
  check (t.pgdir = 0 → kHeapStart ≤ ptr) .panic
  let p := poolOf t
  lockFetch (.pool p)
  giveBack p ptr
  lockRelease (.pool p)

end Frog.Mm
