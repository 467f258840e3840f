import Frog.Thread.Ring
import Frog.Lib.Runs
import Mathlib.Logic.Function.Basic

/-!
# Calls on one queue

`ioqueue_put_data` and `ioqueue_get_data` of `core/lib/ioqueue.c` by any number of threads on one
queue, interrupted anywhere: each pass of the inner loops is a step of its own, and so is what the
code does with the interrupts off. Any thread that is not asleep may go on next, as the scheduler
may let any of them run; `lock_fetch` and `lock_release` are one step each. `Traffic` notes what
goes through the queue. The memory behind its pages belongs to others.
-/

namespace Frog.Thread

set_option autoImplicit false

/-! ## The memory of a queue -/

/-- `sizeof(CircleQueue)`, where `buf` begins. -/
def headerSize : Nat := 48

def pgSize : Nat := 4096

/-- `pg_count` in `init_ioqueue`, with the wrap of `DIV_ROUND_UP`. -/
def pgCount (size : BitVec 32) : BitVec 32 :=
  let unit := BitVec.ofNat 32 (pgSize + headerSize)
  if unit < size then (size + unit - 1) / unit else 1

/-- `kernel_viraddr` has a bit for each of the pages, whose number is a 16-bit value halved. -/
def maxKernelPages : Nat := 32760

/-- `init_ioqueue` where `free` pages in a row can be had; no page at all is asserted against. -/
def initIoqueue (free : Nat) (size : BitVec 32) : Option CircleQueue :=
  if 0 < (pgCount size).toNat ∧ (pgCount size).toNat ≤ min free maxKernelPages then
    some (CircleQueue.init size)
  else none

/-- The bytes of `buf` that lie in the pages of the queue. -/
def bufRoom (size : BitVec 32) : Nat := pgSize * (pgCount size).toNat - headerSize

/-- What lies behind the pages becomes `b`. -/
def CircleQueue.disturb (q : CircleQueue) (b : Nat → Byte) : CircleQueue :=
  { q with buf := fun i => if i < bufRoom q.size then q.buf i else b i }

/-! ## The calls -/

/-- The arguments of a call with its variables. -/
inductive Call where
  | put (data : List Byte) (written : Nat) (wData : List Byte)
  | get (count : Nat) (got : List Byte)
  deriving DecidableEq

/-- Where a call stands. -/
inductive Stage where
  /-- Before the test of the outer loop. -/
  | loop
  /-- In `lock_fetch`. -/
  | fetch
  /-- Before the test for room or for data. -/
  | test
  /-- Before the test of the inner loop. -/
  | copy
  /-- Before `wake_up_consumors` or `wake_up_producers`. -/
  | wake
  /-- Before the test whether all is done. -/
  | woke
  /-- Linked in a waiting list, before `intr_disable`. -/
  | sleep
  /-- In `thread_block`. -/
  | blocked
  /-- Before `lock_release`. -/
  | release
  deriving DecidableEq

inductive Place where
  | outside
  | inside (k : Call) (g : Stage)
  deriving DecidableEq

structure Channel where
  queue : CircleQueue
  producerWaitingList : List Tid
  consumorWaitingList : List Tid
  place : Tid → Place

namespace Call

def unfinished : Call → Bool
  | put data written _ => written < data.length
  | get count got => got.length < count

/-- The test before the inner loop. -/
def fits (q : CircleQueue) : Call → Bool
  | put data _ _ => BitVec.ofNat 32 data.length < q.avaliable
  | get count _ => BitVec.ofNat 32 count ≤ q.unread

/-- `w_data` starts again at `data`, `rd_cursor` goes on. -/
def begin : Call → Call
  | put data written _ => put data written data
  | get count got => get count got

/-- The test of the inner loop. -/
def copying (q : CircleQueue) : Call → Bool
  | put data written _ => 0 < q.avaliable ∧ written < data.length
  | get count got => 0 < q.unread ∧ got.length < count

/-- One pass of the inner loop. -/
def copy (q : CircleQueue) : Call → Call × CircleQueue
  | put data written wData =>
    (put data (written + 1) wData.tail, { q with
      buf := fun i => if i = q.producerP.toNat then wData.headD 0 else q.buf i
      producerP := q.nextIndex q.producerP })
  | get count got =>
    (get count (got ++ [q.buf q.consumorP.toNat]), { q with
      consumorP := q.nextIndex q.consumorP })

end Call

namespace Channel

def goto (c : Channel) (t : Tid) (p : Place) : Channel :=
  { c with place := Function.update c.place t p }

def setLock (c : Channel) (l : Lock) : Channel := { c with queue := { c.queue with queueLock := l } }

/-- The list that a call waits in. -/
def waitingList (c : Channel) : Call → List Tid
  | .put _ _ _ => c.producerWaitingList
  | .get _ _ => c.consumorWaitingList

/-- `wake_up_consumors` after a put, `wake_up_producers` after a get. -/
def wakeUp (c : Channel) : Call → Channel
  | .put _ _ _ => { c with consumorWaitingList := [] }
  | .get _ _ => { c with producerWaitingList := [] }

def addToWaitingList (c : Channel) (t : Tid) : Call → Channel
  | .put _ _ _ => { c with producerWaitingList := c.producerWaitingList ++ [t] }
  | .get _ _ => { c with consumorWaitingList := c.consumorWaitingList ++ [t] }

/-- Who wants the lock waits until it is free, who is blocked until it is off the list. -/
def CanStep (c : Channel) (t : Tid) : Prop :=
  match c.place t with
  | .outside => False
  | .inside _ .fetch => c.queue.queueLock.holder = none
  | .inside k .blocked => t ∉ c.waitingList k
  | .inside _ _ => True

/-- The next step of a thread inside a call, `none` at a `PANIC`. -/
def advance (c : Channel) (t : Tid) : Option Channel :=
  match c.place t with
  | .outside => none
  | .inside k .loop => some (c.goto t (if k.unfinished then .inside k .fetch else .outside))
  | .inside k .fetch => some ((c.setLock ⟨some t, 0, 1⟩).goto t (.inside k .test))
  | .inside k .test =>
    some (c.goto t (.inside k.begin (if k.begin.fits c.queue then .copy else .wake)))
  | .inside k .copy =>
    if k.copying c.queue then
      some ({ c with queue := (k.copy c.queue).2 }.goto t (.inside (k.copy c.queue).1 .copy))
    else some (c.goto t (.inside k .wake))
  | .inside k .wake => some ((c.wakeUp k).goto t (.inside k .woke))
  | .inside k .woke =>
    if k.unfinished then
      if t ∈ c.waitingList k then none
      else some ((c.addToWaitingList t k).goto t (.inside k .sleep))
    else some (c.goto t (.inside k .release))
  | .inside k .sleep => some ((c.setLock Lock.init).goto t (.inside k .blocked))
  | .inside k .blocked => some (c.goto t (.inside k .loop))
  | .inside k .release => some ((c.setLock Lock.init).goto t (.inside k .loop))

end Channel

/-! ## What goes through -/

/-- The bytes in the order in which they go into the queue and come out of it; what the calls moved,
in the order in which they finished that; and the calls that returned. -/
structure Traffic where
  produced : List Byte
  consumed : List Byte
  puts : List (Tid × List Byte)
  gets : List (Tid × List Byte)
  putData : List (Tid × List Byte)
  getData : List (Tid × Nat × List Byte)

/-- A call that has nothing to move has moved it when it returns. -/
def Traffic.note (r : Traffic) (q : CircleQueue) (t : Tid) : Place → Traffic
  | .inside (.put data written wData) .copy =>
    if (Call.put data written wData).copying q then
      { r with produced := r.produced ++ [wData.headD 0] }
    else { r with puts := r.puts ++ [(t, data.take written)] }
  | .inside (.get count got) .copy =>
    if (Call.get count got).copying q then
      { r with consumed := r.consumed ++ [q.buf q.consumorP.toNat] }
    else { r with gets := r.gets ++ [(t, got)] }
  | .inside (.put data written _) .loop =>
    if written < data.length then r
    else { r with
      puts := if data = [] then r.puts ++ [(t, [])] else r.puts
      putData := r.putData ++ [(t, data)] }
  | .inside (.get count got) .loop =>
    if got.length < count then r
    else { r with
      gets := if count = 0 then r.gets ++ [(t, [])] else r.gets
      getData := r.getData ++ [(t, count, got)] }
  | _ => r

structure Piped where
  chan : Channel
  traffic : Traffic

inductive Move where
  | putData (t : Tid) (data : List Byte)
  | getData (t : Tid) (count : Nat)
  | step (t : Tid)
  /-- Others write into the pages behind the queue. -/
  | disturb (b : Nat → Byte)

namespace Piped

def start (q : CircleQueue) : Piped :=
  ⟨⟨q, [], [], fun _ => .outside⟩, ⟨[], [], [], [], [], []⟩⟩

def Step (p : Piped) (e : Move) (p' : Piped) : Prop :=
  match e with
  | .putData t data => p.chan.place t = .outside ∧
    p' = { p with chan := p.chan.goto t (.inside (.put data 0 []) .loop) }
  | .getData t count => p.chan.place t = .outside ∧
    p' = { p with chan := p.chan.goto t (.inside (.get count []) .loop) }
  | .step t => p.chan.CanStep t ∧ p.chan.advance t = some p'.chan ∧
    p'.traffic = p.traffic.note p.chan.queue t (p.chan.place t)
  | .disturb b => p' = { p with chan := { p.chan with queue := p.chan.queue.disturb b } }

/-- The counts are smaller than the size less one. -/
def Small (p : Piped) : Move → Prop
  | .putData _ data => data.length + 1 < p.chan.queue.size.toNat
  | .getData _ count => count + 1 < p.chan.queue.size.toNat
  | _ => True

end Piped

end Frog.Thread
