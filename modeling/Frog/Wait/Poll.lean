import Frog.Mm.HeldPages
import Frog.Timer.OnTime
import Frog.Wait.Queue

/-!
# Polling

`core/fs/select.c` and `core/include/frog/poll.h`, with `sys_poll`, the poll functions of the three
devices that have one, and `schedule_timeout` of `core/thread/sched.c`. The pages of a poll table are a
list, the newest first. Where the thread can lose the processor the other threads and the interrupt
handlers take a turn.
-/

namespace Frog.Poll

set_option autoImplicit false
open Prog
open Frog.Thread (Tid)

/-- `own` is an entry of the poll table, by its page and its place there, `other` one of another
waiter. -/
inductive Entry (O : Type) where
  | own (page k : Nat)
  | other (o : O)
  deriving DecidableEq

/-- `struct poll_table_entry`; the wait queue entry in it is kept with the queues. -/
structure PollTableEntry where
  filp : Nat
  waitAddress : Nat

/-- `entry` points behind the last of the entries. -/
structure PollTablePage where
  addr : Nat
  entries : List PollTableEntry

structure PollTable where
  error : Int
  table : List PollTablePage

/-- The values of `i_dev` that `sys_poll` tells apart. -/
inductive Dev where
  | aux | pcMouse | pcKbd | other
  deriving DecidableEq

/-- `waiters` are the entries that the other waiters have in a queue: it says what the queues should
hold, and no function reads it. `fdTable` is that of the running thread, with what lies behind its end.
`full` says that the queue of a device is not empty, `res` is what `sys_poll` finds in its variable. -/
structure State (O : Type) where
  wait : Wait.State (Entry O)
  waiters : Nat → List O
  timer : Timer.State
  mm : Mm.State
  pt : PollTable
  fdTable : BitVec 32 → Int
  dev : Nat → Dev
  full : Nat → Bool
  res : BitVec 32
  turns : Nat

/-- `assert` is a failed `ASSERT`, `hang` a loop that needs more fuel. -/
inductive Stop where
  | assert | fault | hang
  | wait (e : Wait.Stop)
  | timer (e : Timer.Stop)
  | mm (e : Mm.Stop)
  deriving DecidableEq

abbrev M (O : Type) := Prog Stop (State O)

section Model
variable {O : Type} [DecidableEq O]

def onWait {α : Type} (m : Wait.M (Entry O) α) : M O α :=
  zoom State.wait (fun s w => { s with wait := w }) .wait m

def onTimer {α : Type} (m : Timer.M α) : M O α :=
  zoom State.timer (fun s w => { s with timer := w }) .timer m

def onMm {α : Type} (m : Mm.M α) : M O α :=
  zoom State.mm (fun s w => { s with mm := w }) .mm m

/-! ## The others -/

/-- One step of another thread or of an interrupt handler. They add and remove entries of their own
only, wake whom they will, run the timers and leave alone the timer `timer` and the pages of the poll
table. -/
inductive Other (timer : Nat) : State O → State O → Prop
  | join (s : State O) (q : Nat) (o : O) (p : Tid) (w : Wait.State (Entry O)) :
    (∀ q', o ∉ s.waiters q') →
    (do Wait.initWaitqueueEntry (Entry.other o) p; Wait.addWaitQueue q (Entry.other o)) s.wait = .ok ((), w) →
    Other timer s { s with
      wait := w
      waiters := Function.update s.waiters q (o :: s.waiters q) }
  | leave (s : State O) (q : Nat) (o : O) (w : Wait.State (Entry O)) : o ∈ s.waiters q →
    Wait.removeWaitQueue q (.other o) s.wait = .ok ((), w) →
    Other timer s { s with
      wait := w
      waiters := Function.update s.waiters q ((s.waiters q).erase o) }
  | wake (s : State O) (n q : Nat) (mode : BitVec 32) (nr : Nat) (w : Wait.State (Entry O)) :
    Wait.wakeUp n (some q) mode nr s.wait = .ok ((), w) → Other timer s { s with wait := w }
  /-- The scheduler turns to the ready list and the status of the threads. -/
  | schedule (s : State O) (links : Links (Wait.Node (Entry O))) (status : Tid → Thread.Status)
    (ps : List Tid) : RingList links .ready (ps.map .tag) →
    (∀ x, (∃ q, x = .head q) ∨ (∃ e, x = .entry e) →
      links.next x = s.wait.links.next x ∧ links.prev x = s.wait.links.prev x) →
    Other timer s { s with wait := { s.wait with links := links, status := status } }
  | timer (s : State O) (e : Timer.Event) (t : Timer.State) : (∀ x, e ≠ .add timer x) →
    e ≠ .del timer → Timer.Step s.timer e t → Other timer s { s with timer := t }
  /-- How the thread finds memory when it goes on. -/
  | memory (s : State O) (t : Mm.State) : (Mm.Paged s.mm → Mm.Paged t) →
    (∀ page ∈ s.pt.table, ∀ i, Mm.Held s.mm page.addr i → Mm.Held t page.addr i) →
    Other timer s { s with mm := t }
  | device (s : State O) (fdTable : BitVec 32 → Int) (dev : Nat → Dev) (full : Nat → Bool)
    (res : BitVec 32) :
    Other timer s { s with fdTable := fdTable, dev := dev, full := full, res := res }

/-- What the others do at each turn. They leave no timer handler unfinished. -/
structure Others (O : Type) [DecidableEq O] (timer : Nat) where
  run : Nat → State O → State O
  steps : ∀ k s, Relation.ReflTransGen (Other timer) s (run k s)
  idle : ∀ k s, s.timer.phase = .idle → (run k s).timer.phase = .idle

/-- A call by the thread `current`, with the address of the `timer` on its stack. -/
structure Call (O : Type) [DecidableEq O] where
  current : Tid
  timer : Nat
  others : Others O timer

variable (c : Call O)

def turn : M O Unit := modify fun s => { c.others.run s.turns s with turns := s.turns + 1 }

def setStatus (x : Thread.Status) : M O Unit :=
  onWait (modify fun w => w.setStatus c.current x)

/-! ## `schedule_timeout` -/

def initTimer (t : Nat) : Timer.M Unit :=
  Timer.setLinks fun l => (l.setPrev (.timer t) .null).setNext (.timer t) .null

def maxScheduleTimeout : BitVec 32 := 0x7fffffff

/-- The handler of the timer wakes the thread; that is a turn of the others. -/
def scheduleTimeout (timeout : BitVec 32) : M O (BitVec 32) := do
  if timeout = maxScheduleTimeout then
    turn c
    pure timeout
  else if timeout.slt 0 then
    setStatus c .running
    pure 0
  else
    let s ← get
    let expire := timeout + s.timer.ticks
    onTimer (initTimer c.timer)
    onTimer (modify fun w => w.setExpires c.timer expire)
    onTimer (Timer.addTimer c.timer)
    turn c
    onTimer (Timer.delTimer c.timer)
    let s ← get
    let timeout := expire - s.timer.ticks
    pure (if timeout.slt 0 then 0 else timeout)

/-! ## The poll table -/

/-- `ENOMEM` -/
def enomem : Int := 12

def pollInitwait : M O Unit := modify fun s => { s with pt := ⟨0, []⟩ }

/-- The entries of 32 bytes follow a head of 8. -/
def pollTableFull (page : PollTablePage) : Bool :=
  Mm.pgSize + page.addr < page.addr + 8 + 32 * (page.entries.length + 1)

/-- A page in front of the others. The thread may have to wait for the lock of the pool. -/
def newTable : M O Bool := do
  turn c
  let a ← onMm (Mm.getKernelPage 1)
  if a = 0 then
    modify fun s => { s with pt := { s.pt with error := -enomem } }
    setStatus c .running
    pure false
  else
    modify fun s => { s with pt := { s.pt with table := ⟨a, []⟩ :: s.pt.table } }
    pure true

def addEntry (filp waitAddress : Nat) : M O Unit := do
  let s ← get
  match s.pt.table with
  | [] => stop .fault
  | page :: rest =>
    let entry : PollTableEntry := ⟨filp, waitAddress⟩
    modify fun s => { s with
      pt := { s.pt with table := { page with entries := page.entries ++ [entry] } :: rest } }
    onWait (Wait.initWaitqueueEntry (.own page.addr page.entries.length) c.current)
    onWait (Wait.addWaitQueue waitAddress (.own page.addr page.entries.length))

/-- Whether there is no page with room in front. -/
def needsTable (s : State O) : Bool :=
  match s.pt.table with
  | [] => true
  | page :: _ => pollTableFull page

/-- `__pollwait` -/
def pollwait (filp waitAddress : Nat) : M O Unit := do
  let s ← get
  if needsTable s = true then
    let got ← newTable c
    if got = true then
      addEntry c filp waitAddress
  else
    addEntry c filp waitAddress

/-- `wait` says that a poll table was passed. -/
def pollWait (filp : Nat) (waitAddress : Option Nat) (wait : Bool) : M O Unit :=
  match waitAddress with
  | some q => if wait = true then pollwait c filp q else pure ()
  | none => pure ()

/-- The `do` loop of `poll_freewait` with `entry` at so many entries. -/
def removeEntries (page : PollTablePage) : Nat → M O Unit
  | 0 => stop .fault
  | k + 1 => do
    let entry ← need page.entries[k]? .fault
    onWait (Wait.removeWaitQueue entry.waitAddress (.own page.addr k))
    if 0 < k then
      removeEntries page k

def pollFreewait : List PollTablePage → M O Unit
  | [] => pure ()
  | p :: next => do
    removeEntries p p.entries.length
    onMm (Mm.mfreePage .kernel p.addr 1)
    pollFreewait next

/-! ## `sys_poll` -/

/-- The poll functions differ in their queue; they answer `POLLIN | POLLRDNORM`. -/
def pollQueue (queue file : Nat) (wait : Bool) : M O (BitVec 32) := do
  pollWait c file (some queue) wait
  let s ← get
  if s.full queue = true then pure 0x41 else pure 0

def pollAux (file : Nat) (wait : Bool) : M O (BitVec 32) := pollQueue c 0 file wait

def pollPcmouse (file : Nat) (wait : Bool) : M O (BitVec 32) := pollQueue c 1 file wait

def pollKbd (file : Nat) (wait : Bool) : M O (BitVec 32) := pollQueue c 2 file wait

def sysPoll (file : Nat) (wait : Bool) : M O (BitVec 32) := do
  let s ← get
  match s.dev file with
  | .aux => pollAux c file wait
  | .pcMouse => pollPcmouse c file wait
  | .pcKbd => pollKbd c file wait
  | .other => pure s.res

/-- The file is its index in `g_file_table`. -/
def getFile (localFd : BitVec 32) : M O Nat := do
  let s ← get
  check (0 ≤ s.fdTable localFd ∧ s.fdTable localFd < 128) .assert
  pure (s.fdTable localFd).toNat

/-! ## `do_wait2` -/

/-- `POLLIN_SET` -/
def pollinSet : BitVec 32 := 0xd9

/-- The loop over the descriptors from `i` on. -/
def scan : Nat → List (BitVec 32) → Bool → Int → M O Int
  | _, [], _, retval => pure retval
  | i, fd :: fds, wait, retval => do
    let f ← getFile fd
    let mask ← sysPoll c f wait
    if mask &&& pollinSet ≠ 0 then
      scan (i + 1) fds false i
    else
      scan (i + 1) fds wait retval

/-- The passes. A pass runs with interrupts disabled; before it they may be enabled. -/
def waitLoop (fds : List (BitVec 32)) : Nat → Bool → BitVec 32 → M O (Int × BitVec 32)
  | 0, _, _ => stop .hang
  | fuel + 1, wait, timeout => do
    turn c
    setStatus c .waiting
    let retval ← scan c 0 fds wait (-1)
    if retval ≠ -1 ∨ timeout = 0 then
      pure (retval, timeout)
    else
      let s ← get
      if s.pt.error ≠ 0 then
        pure (s.pt.error, timeout)
      else
        let timeout ← scheduleTimeout c timeout
        waitLoop fds fuel false timeout

/-- What is returned, with the new `*timeout`. -/
def doWait2 (fuel : Nat) (fds : List (BitVec 32)) (timeout : BitVec 32) : M O (Int × BitVec 32) := do
  pollInitwait
  let r ← waitLoop c fds fuel (timeout ≠ 0) timeout
  setStatus c .running
  let s ← get
  pollFreewait s.pt.table
  pure r

end Model

end Frog.Poll
