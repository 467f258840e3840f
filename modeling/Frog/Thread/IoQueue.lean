import Mathlib.Data.Nat.Notation

/-!
# Locks and circular queues

The records of `semaphore.h` and `ioqueue.h` and the arithmetic of `core/lib/ioqueue.c`. The waiting
lists that belong to them are kept with the links of the threads.
-/

namespace Frog.Thread

set_option autoImplicit false

/-- A thread, and its pid. -/
abbrev Tid := Nat

abbrev Byte := BitVec 8

/-- `struct lock` with its semaphore. -/
structure Lock where
  holder : Option Tid
  value : BitVec 32
  holderRepeatNr : BitVec 32

/-- `lock_init`. -/
def Lock.init : Lock := ⟨none, 1, 0⟩

structure CircleQueue where
  queueLock : Lock
  producerP : BitVec 32
  consumorP : BitVec 32
  size : BitVec 32
  buf : Nat → Byte

/-- `init_ioqueue` once it has its page. -/
def CircleQueue.init (size : BitVec 32) : CircleQueue := ⟨Lock.init, 0, 0, size, fun _ => 0⟩

namespace CircleQueue

/-- `ioqueue_avaliable`; the positions are compared as signed numbers. -/
def avaliable (q : CircleQueue) : BitVec 32 :=
  if q.consumorP = q.producerP then q.size - 1
  else if q.producerP.slt q.consumorP then q.consumorP - q.producerP - 1
  else q.size - q.producerP + q.consumorP - 1

/-- `ioqueue_unread`. -/
def unread (q : CircleQueue) : BitVec 32 :=
  if q.consumorP = q.producerP then 0
  else if q.producerP.slt q.consumorP then q.size - q.consumorP + q.producerP
  else q.producerP - q.consumorP

def nextIndex (q : CircleQueue) (i : BitVec 32) : BitVec 32 := (i + 1) % q.size

/-- The inner loop of `ioqueue_put_data`, with `left` bytes still to write; the result is what is
left when the queue is full. -/
def putLoop : Nat → List Byte → CircleQueue → Nat × CircleQueue
  | 0, _, q => (0, q)
  | left + 1, data, q =>
    if 0 < q.avaliable then
      putLoop left data.tail { q with
        buf := fun i => if i = q.producerP.toNat then data.headD 0 else q.buf i
        producerP := q.nextIndex q.producerP }
    else (left + 1, q)

/-- The inner loop of `ioqueue_get_data`, with `left` bytes still to read behind `got`. -/
def getLoop : Nat → List Byte → CircleQueue → List Byte × CircleQueue
  | 0, got, q => (got, q)
  | left + 1, got, q =>
    if 0 < q.unread then
      getLoop left (got ++ [q.buf q.consumorP.toNat]) { q with
        consumorP := q.nextIndex q.consumorP }
    else (got, q)

/-- The copying in one pass of `ioqueue_put_data`. -/
def putPass (q : CircleQueue) (data : List Byte) (left : Nat) : Nat × CircleQueue :=
  if BitVec.ofNat 32 data.length < q.avaliable then putLoop left data q else (left, q)

/-- The copying in one pass of `ioqueue_get_data`. -/
def getPass (q : CircleQueue) (count : Nat) (got : List Byte) : List Byte × CircleQueue :=
  if BitVec.ofNat 32 count ≤ q.unread then getLoop (count - got.length) got q else (got, q)

end CircleQueue

end Frog.Thread
