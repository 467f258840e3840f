import Frog.Lib.Prog
import Frog.Lib.RingList
import Frog.Lib.Runs
import Frog.Thread.IoQueue

/-!
# Threads

`core/thread/threads.c`, `core/thread/semaphore.c`, the waits of `core/lib/ioqueue.c` and
`sys_wait` and `sys_exit` of `core/thread/exit.c`. One thread runs at a time. What it does up to the
next point where a timer interrupt can come in, or up to the next switch, is one step; `Pc` says
where in these functions each thread stands. Two steps are longer: no interrupt comes in between the
copying and the link into a waiting list in the loops of `ioqueue.c`, nor between the `ASSERT` of
`thread_unblock` and its `intr_disable`.
-/

namespace Frog.Thread

set_option autoImplicit false
open Prog

/-- The lists that a `general_tag` is linked in. A semaphore is numbered by the queue whose lock it
belongs to. -/
inductive Head where
  | ready
  | waiters (q : Nat)
  | producers (q : Nat)
  | consumors (q : Nat)
  deriving DecidableEq

inductive Node where
  | head (h : Head)
  | tag (t : Tid)
  deriving DecidableEq

/-- `task_status_t`. -/
inductive Status where
  | running | ready | waiting | hanging | blocked | died
  deriving DecidableEq

/-- Where a thread goes on outside of the lock functions. -/
inductive Site where
  /-- Outside of all the functions here. -/
  | user
  /-- At the head of the loop of `sys_wait`. -/
  | wait
  /-- In `sys_wait` with its child taken off the list. -/
  | reaping
  /-- In `sys_exit` while it releases the resources. -/
  | exiting
  /-- Behind the last `thread_block` of `sys_exit`. -/
  | exited
  /-- At the head of the loop of `ioqueue_put_data`, with `left` bytes to write. -/
  | put (q : Nat) (data : List Byte) (left : Nat)
  /-- In that loop with the lock. -/
  | putBody (q : Nat) (data : List Byte) (left : Nat)
  /-- In that loop, between `add_to_waiting_list` and `intr_disable`. -/
  | putWait (q : Nat) (data : List Byte) (left : Nat)
  /-- In that loop, in `thread_block`. -/
  | putBlocked (q : Nat) (data : List Byte) (left : Nat)
  | get (q : Nat) (count : Nat) (got : List Byte)
  | getBody (q : Nat) (count : Nat) (got : List Byte)
  | getWait (q : Nat) (count : Nat) (got : List Byte)
  | getBlocked (q : Nat) (count : Nat) (got : List Byte)
  deriving DecidableEq

inductive Pc where
  | run (k : Site)
  /-- Before the test of `semaphore_down`, which `lock_fetch` called if `locking`; a thread that was
  woken there has the interrupts `masked`. -/
  | down (q : Nat) (locking masked : Bool) (k : Site)
  /-- Behind `semaphore_down` in `lock_fetch`. -/
  | owned (q : Nat) (k : Site)
  /-- The holder is set. -/
  | claimed (q : Nat) (k : Site)
  /-- Before `holder_repeat_nr++`. -/
  | nesting (q : Nat) (k : Site)
  /-- Before `holder_repeat_nr--`. -/
  | lowering (q : Nat) (k : Site)
  /-- Before `holder = NULL`. -/
  | releasing (q : Nat) (k : Site)
  /-- Before `holder_repeat_nr = 0`. -/
  | cleared (q : Nat) (k : Site)
  /-- Before `semaphore_up`. -/
  | upping (q : Nat) (k : Site)
  deriving DecidableEq

/-- What the last call handed back. -/
inductive Ret where
  | void
  | size (n : Nat)
  | bytes (data : List Byte)
  | child (pid : Tid) (status : BitVec 32)
  | error
  deriving DecidableEq

/-- The fields of the TCBs are functions of the thread; `all` is `thread_all_list`. -/
structure State where
  links : Links Node
  all : List Tid
  cur : Tid
  idle : Tid
  status : Tid → Status
  parentPid : Tid → Option Tid
  exitStatus : Tid → BitVec 32
  pc : Tid → Pc
  ret : Tid → Ret
  queue : Nat → CircleQueue

/-- `panic` is a failed `ASSERT` or a `PANIC`, `fault` the use of a pointer that is none, `hang` a
walk that does not end. -/
inductive Stop where
  | panic | fault | hang
  deriving DecidableEq

abbrev M := Prog Stop State

namespace State

def setLinks (s : State) (l : Links Node) : State := { s with links := l }

def setStatus (s : State) (t : Tid) (x : Status) : State :=
  { s with status := Function.update s.status t x }

def setPc (s : State) (t : Tid) (p : Pc) : State := { s with pc := Function.update s.pc t p }

def setRet (s : State) (t : Tid) (r : Ret) : State := { s with ret := Function.update s.ret t r }

def setQueue (s : State) (q : Nat) (c : CircleQueue) : State :=
  { s with queue := Function.update s.queue q c }

def setLock (s : State) (q : Nat) (l : Lock) : State :=
  s.setQueue q { s.queue q with queueLock := l }

def lock (s : State) (q : Nat) : Lock := (s.queue q).queueLock

/-- No walk along a list of threads is longer. -/
def fuel (s : State) : Nat := s.all.length + 1

end State

def runningThread : M Tid := do
  let s ← get
  pure s.cur

def setStatus (t : Tid) (x : Status) : M Unit := modify fun s => s.setStatus t x

/-- The running thread goes on at `p`. -/
def goto (p : Pc) : M Unit := modify fun s => s.setPc s.cur p

def setRet (r : Ret) : M Unit := modify fun s => s.setRet s.cur r

def setLock (q : Nat) (l : Lock) : M Unit := modify fun s => s.setLock q l

def lockAt (q : Nat) : M Lock := do
  let s ← get
  pure (s.lock q)

/-! ## `list.c` on the links of the threads -/

def listAdd (n : Node) (h : Head) : M Unit := modify fun s => s.setLinks (s.links.add n (.head h))

def listAddTail (n : Node) (h : Head) : M Unit :=
  modify fun s => s.setLinks (s.links.addTail n (.head h))

def listDelInit (n : Node) : M Unit := modify fun s => s.setLinks (s.links.delInit n)

def listPop (h : Head) : M Node := do
  let s ← get
  let target := s.links.next (.head h)
  listDelInit target
  pure target

def listIsEmpty (h : Head) : M Bool := do
  let s ← get
  pure (s.links.isEmpty (.head h))

def listLength (h : Head) : M Nat := do
  let s ← get
  need (s.links.length s.fuel (.head h)) .hang

def listFindElement (n : Node) (h : Head) : M Bool := do
  let s ← get
  need (s.links.findElement s.fuel n (.head h)) .hang

/-- `container_of`; the head of a list is in no TCB. -/
def containerOf : Node → M Tid
  | .tag t => pure t
  | .head _ => stop .fault

/-! ## `threads.c` -/

def threadUnblock (t : Tid) : M Unit := do
  let s ← get
  check (s.status t = .hanging ∨ s.status t = .waiting ∨ s.status t = .blocked) .panic
  let found ← listFindElement (.tag t) .ready
  check (found = false) .panic
  listAdd (.tag t) .ready
  setStatus t .ready

/-- The part of `schedule` behind the entry of the running thread. -/
def dispatch : M Unit := do
  let s ← get
  let empty ← listIsEmpty .ready
  if empty = true then
    threadUnblock s.idle
  let tag ← listPop .ready
  let next ← containerOf tag
  setStatus next .running
  modify fun s => { s with cur := next }

def schedule : M Unit := do
  let s ← get
  if s.status s.cur = .running then
    let found ← listFindElement (.tag s.cur) .ready
    check (found = false) .panic
    listAddTail (.tag s.cur) .ready
    setStatus s.cur .ready
  else if s.status s.cur = .ready then
    let found ← listFindElement (.tag s.cur) .ready
    if found = false then
      listAddTail (.tag s.cur) .ready
  dispatch

def threadBlock (x : Status) : M Unit := do
  check (x = .hanging ∨ x = .waiting ∨ x = .blocked) .panic
  let t ← runningThread
  setStatus t x
  schedule

def threadYield : M Unit := do
  let t ← runningThread
  let found ← listFindElement (.tag t) .ready
  check (found = false) .panic
  listAddTail (.tag t) .ready
  setStatus t .ready
  schedule

/-- `thread_exit` up to the release of the pid, for a thread that is not the running one. -/
def threadExit (t : Tid) : M Unit := do
  setStatus t .died
  let found ← listFindElement (.tag t) .ready
  if found = true then
    listDelInit (.tag t)
  modify fun s => { s with all := s.all.erase t }

/-! ## `semaphore.c` -/

/-- One pass of the loop of `semaphore_down`; `again` is where a thread that waits goes on. -/
def semaphoreDown (q : Nat) (again through : Pc) : M Unit := do
  let l ← lockAt q
  if l.value = 0 then
    let t ← runningThread
    let found ← listFindElement (.tag t) (.waiters q)
    check (found = false) .panic
    listAddTail (.tag t) (.waiters q)
    goto again
    threadBlock .blocked
  else
    check (l.value - 1 = 0) .panic
    setLock q { l with value := l.value - 1 }
    goto through

def semaphoreUp (q : Nat) : M Unit := do
  let empty ← listIsEmpty (.waiters q)
  if empty = false then
    let tag ← listPop (.waiters q)
    let blocked ← containerOf tag
    threadUnblock blocked
  let l ← lockAt q
  check (l.value + 1 = 1) .panic
  setLock q { l with value := l.value + 1 }

/-- The test that `lock_fetch` begins with. -/
def lockFetch (q : Nat) (k : Site) : M Unit := do
  let t ← runningThread
  let l ← lockAt q
  if l.holder = some t then goto (.nesting q k) else goto (.down q true false k)

/-- The tests that `lock_release` begins with. -/
def lockRelease (q : Nat) (k : Site) : M Unit := do
  let l ← lockAt q
  if 1 < l.holderRepeatNr then goto (.lowering q k)
  else
    check (l.holderRepeatNr = 1) .panic
    goto (.releasing q k)

/-- `lock_release` with the interrupts off. -/
def lockReleaseMasked (q : Nat) : M Unit := do
  let l ← lockAt q
  if 1 < l.holderRepeatNr then setLock q { l with holderRepeatNr := l.holderRepeatNr - 1 }
  else
    check (l.holderRepeatNr = 1) .panic
    setLock q { l with holder := none, holderRepeatNr := 0 }
    semaphoreUp q

/-! ## `ioqueue.c` -/

/-- `____wake_up`. -/
def wakeUp (h : Head) : Nat → M Unit
  | 0 => stop .hang
  | n + 1 => do
    let len ← listLength h
    if 0 < len then
      let pos ← listPop h
      let waiter ← containerOf pos
      threadUnblock waiter
      wakeUp h n

/-- `wake_up_consumors` and `wake_up_producers`. -/
def wakeUpAll (h : Head) : M Unit := do
  let empty ← listIsEmpty h
  if empty = false then
    let s ← get
    wakeUp h s.fuel

def addToWaitingList (h : Head) : M Unit := do
  let t ← runningThread
  let found ← listFindElement (.tag t) h
  check (found = false) .panic
  listAddTail (.tag t) h

def ioqueuePutBody (q : Nat) (data : List Byte) (left : Nat) : M Unit := do
  let s ← get
  let r := (s.queue q).putPass data left
  modify fun s => s.setQueue q r.2
  wakeUpAll (.consumors q)
  if 0 < r.1 then
    addToWaitingList (.producers q)
    goto (.run (.putWait q data r.1))
  else lockRelease q (.put q data r.1)

def ioqueueGetBody (q : Nat) (count : Nat) (got : List Byte) : M Unit := do
  let s ← get
  let r := (s.queue q).getPass count got
  modify fun s => s.setQueue q r.2
  wakeUpAll (.producers q)
  if r.1.length < count then
    addToWaitingList (.consumors q)
    goto (.run (.getWait q count r.1))
  else lockRelease q (.get q count r.1)

/-- The end of a wait for room or for data, with the interrupts off. -/
def ioqueueSleep (q : Nat) (k : Site) : M Unit := do
  lockReleaseMasked q
  goto (.run k)
  threadBlock .waiting

/-! ## `exit.c` -/

/-- One pass of the loop of `sys_wait`. -/
def sysWait : M Unit := do
  let s ← get
  match s.all.find? fun t => s.parentPid t = some s.cur ∧ s.status t = .hanging with
  | some t =>
    setRet (.child t (s.exitStatus t))
    threadExit t
    goto (.run .reaping)
  | none =>
    match s.all.find? fun t => s.parentPid t = some s.cur with
    | none =>
      setRet .error
      goto (.run .user)
    | some _ =>
      goto (.run .wait)
      threadBlock .waiting

/-- `sys_exit` up to the release of the resources; init has the pid 1. -/
def sysExit (status : BitVec 32) : M Unit := do
  let s ← get
  modify fun s => { s with exitStatus := Function.update s.exitStatus s.cur status }
  check (s.parentPid s.cur ≠ none) .panic
  modify fun s => { s with
    parentPid := fun t => if t ∈ s.all ∧ s.parentPid t = some s.cur then some 1
      else s.parentPid t }
  goto (.run .exiting)

/-- The rest of `sys_exit`. -/
def sysExitWake : M Unit := do
  let s ← get
  let p ← need (s.parentPid s.cur) .fault
  check (p ∈ s.all) .fault
  if s.status p = .waiting then
    threadUnblock p
  goto (.run .exited)
  threadBlock .hanging

/-! ## Steps -/

inductive Op where
  | fetch (q : Nat)
  | release (q : Nat)
  | down (q : Nat)
  | up (q : Nat)
  | put (q : Nat) (data : List Byte)
  | get (q : Nat) (count : Nat)
  | yield
  | block (x : Status)
  | unblock (t : Tid)
  | wait
  | exit (status : BitVec 32)
  deriving DecidableEq

inductive Event where
  /-- The timer interrupt calls `schedule`. -/
  | preempt
  | call (op : Op)
  /-- The running thread goes on with the function it is in. -/
  | step
  deriving DecidableEq

def doCall (k : Site) : Op → M Unit
  | .fetch q => lockFetch q k
  | .release q => lockRelease q k
  | .down q => goto (.down q false false k)
  | .up q => goto (.upping q k)
  | .put q data => goto (.run (.put q data data.length))
  | .get q count => goto (.run (.get q count []))
  | .yield => threadYield
  | .block x => threadBlock x
  | .unblock t => threadUnblock t
  | .wait => sysWait
  | .exit status => sysExit status

def doSite : Site → M Unit
  | .user | .reaping | .exited => goto (.run .user)
  | .wait => sysWait
  | .exiting => sysExitWake
  | .put q data left =>
    if 0 < left then lockFetch q (.putBody q data left)
    else do
      setRet (.size data.length)
      goto (.run .user)
  | .putBody q data left => ioqueuePutBody q data left
  | .putWait q data left => ioqueueSleep q (.putBlocked q data left)
  | .putBlocked q data left => goto (.run (.put q data left))
  | .get q count got =>
    if got.length < count then lockFetch q (.getBody q count got)
    else do
      setRet (.bytes got)
      goto (.run .user)
  | .getBody q count got => ioqueueGetBody q count got
  | .getWait q count got => ioqueueSleep q (.getBlocked q count got)
  | .getBlocked q count got => goto (.run (.get q count got))

def doStep : Pc → M Unit
  | .run k => doSite k
  | .down q locking _ k =>
    semaphoreDown q (.down q locking true k) (if locking then .owned q k else .run k)
  | .owned q k => do
    let t ← runningThread
    let l ← lockAt q
    setLock q { l with holder := some t }
    goto (.claimed q k)
  | .claimed q k => do
    let l ← lockAt q
    check (l.holderRepeatNr = 0) .panic
    setLock q { l with holderRepeatNr := 1 }
    goto (.run k)
  | .nesting q k => do
    let l ← lockAt q
    setLock q { l with holderRepeatNr := l.holderRepeatNr + 1 }
    goto (.run k)
  | .lowering q k => do
    let l ← lockAt q
    setLock q { l with holderRepeatNr := l.holderRepeatNr - 1 }
    goto (.run k)
  | .releasing q k => do
    let l ← lockAt q
    setLock q { l with holder := none }
    goto (.cleared q k)
  | .cleared q k => do
    let l ← lockAt q
    setLock q { l with holderRepeatNr := 0 }
    goto (.upping q k)
  | .upping q k => do
    semaphoreUp q
    goto (.run k)

def doEvent : Event → M Unit
  | .preempt => schedule
  | .call op => do
    let s ← get
    match s.pc s.cur with
    | .run k => doCall k op
    | _ => stop .fault
  | .step => do
    let s ← get
    doStep (s.pc s.cur)

/-- A system call runs with the interrupts off. -/
def Site.masked : Site → Bool
  | .wait | .reaping | .exiting | .exited => true
  | _ => false

def Pc.site : Pc → Site
  | .run k | .down _ _ _ k | .owned _ k | .claimed _ k | .nesting _ k | .lowering _ k
  | .releasing _ k | .cleared _ k | .upping _ k => k

def Pc.masked (p : Pc) : Bool :=
  match p with
  | .down _ _ true _ => true
  | p => p.site.masked

/-- A thread calls one of the functions when it is in none of them; the idle thread only blocks
itself. The release of pages, files and pids takes locks on the way. -/
def Enabled (s : State) : Event → Prop
  | .preempt => (s.pc s.cur).masked = false
  | .call (.fetch _) | .call (.release _) =>
    s.cur ≠ s.idle ∧ s.pc s.cur ∈ [Site.user, .reaping, .exiting].map Pc.run
  | .call (.block x) => s.pc s.cur = .run .user ∧ (s.cur = s.idle → x = .blocked)
  | .call (.unblock t) => s.cur ≠ s.idle ∧ s.pc s.cur = .run .user ∧ t ∈ s.all
  | .call _ => s.cur ≠ s.idle ∧ s.pc s.cur = .run .user
  | .step => s.pc s.cur ≠ .run .user

def Step (s : State) (e : Event) (t : State) : Prop :=
  Enabled s e ∧ doEvent e s = .ok ((), t)

/-! ## The start -/

/-- The links after `thread_start` has put the threads into the ready list. -/
def startLinks : List Tid → Links Node
  | [] => ⟨id, id⟩
  | t :: ts => (startLinks ts).addTail (.tag t) (.head .ready)

/-- The main thread runs and the others, the last of them first, wait for their turn. -/
def State.start (main idle : Tid) (others : List Tid) (parentPid : Tid → Option Tid)
    (queue : Nat → CircleQueue) : State where
  links := startLinks others
  all := main :: others
  cur := main
  idle := idle
  status := fun t => if t = main then .running else .ready
  parentPid := parentPid
  exitStatus := fun _ => 0
  pc := fun _ => .run .user
  ret := fun _ => .void
  queue := queue

end Frog.Thread
