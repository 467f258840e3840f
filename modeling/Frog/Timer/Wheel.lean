import Frog.Lib.Prog
import Frog.Lib.RingList
import Frog.Lib.Runs

/-!
# The timer wheel

`core/frog/timer.c`. `run_timer_list` is cut at the points where its loop is tested, where it looks
at the list of the current slot and where a handler is called and returns; a handler may add and
delete timers before it returns. The walks over lists take fuel, and a step is one that ends with
some amount of it.
-/

namespace Frog.Timer

set_option autoImplicit false
open Prog

/-- `vec n i` is the slot `i` of `tvecs[n]`, `timer t` the `list` of the timer `t`, `queued` the list
on the stack of `run_timer_list`. -/
inductive Node where
  | vec (n i : Nat)
  | queued
  | timer (t : Nat)
  | null
  deriving DecidableEq

inductive Phase where
  /-- Outside of `run_timer_list`. -/
  | idle
  /-- Before the test of its loop. -/
  | loop
  /-- At `repeat`. -/
  | serve
  /-- In the handler of a timer. -/
  | handler (t : Nat)
  deriving DecidableEq

/-- `running` says that `run_timer_list_running` points to `queued`. -/
structure State where
  links : Links Node
  expires : Nat → BitVec 32
  ticks : BitVec 32
  timerJiffies : BitVec 32
  index : Nat → Nat
  running : Bool
  phase : Phase

/-- `hang` is a walk that needs more fuel, `fault` one that meets no timer. -/
inductive Stop where
  | hang | fault
  deriving DecidableEq

abbrev M := Prog Stop State

namespace State

def setLinks (s : State) (l : Links Node) : State := { s with links := l }

def setIndex (s : State) (n i : Nat) : State := { s with index := Function.update s.index n i }

def setExpires (s : State) (t : Nat) (e : BitVec 32) : State :=
  { s with expires := Function.update s.expires t e }

def setPhase (s : State) (p : Phase) : State := { s with phase := p }

def pending (s : State) (t : Nat) : Bool := s.links.next (.timer t) ≠ .null

/-- The choice of `internal_add_timer`; the width of `tv1` is 8 bits, that of the others 6. -/
def vecFor (s : State) (expires : BitVec 32) : Node :=
  let idx := expires - s.timerJiffies
  if s.running = true then .queued
  else if idx < 1#32 <<< 8 then .vec 0 (expires &&& 255).toNat
  else if idx < 1#32 <<< 14 then .vec 1 (expires >>> 8 &&& 63).toNat
  else if idx < 1#32 <<< 20 then .vec 2 (expires >>> 14 &&& 63).toNat
  else if idx < 1#32 <<< 26 then .vec 3 (expires >>> 20 &&& 63).toNat
  else if idx.slt 0 then .vec 0 (s.index 0)
  else .vec 4 (expires >>> 26 &&& 63).toNat

end State

def setLinks (f : Links Node → Links Node) : M Unit := modify fun s => s.setLinks (f s.links)

def nextOf (n : Node) : M Node := do
  let s ← get
  pure (s.links.next n)

/-- `list_entry`. -/
def listEntry : Node → M Nat
  | .timer t => pure t
  | _ => stop .fault

def internalAddTimer (t : Nat) : M Unit := do
  let s ← get
  setLinks fun l => l.add (.timer t) (l.prev (s.vecFor (s.expires t)))

def addTimer (t : Nat) : M Unit := do
  let s ← get
  if s.pending t = false then
    internalAddTimer t

/-- `detach_timer` with the `NULL`s that both its callers write. -/
def detachTimer (t : Nat) : M Unit := do
  let s ← get
  if s.pending t = true then
    setLinks fun l => l.del .null (.timer t)
  setLinks fun l => (l.setPrev (.timer t) .null).setNext (.timer t) .null

def delTimer (t : Nat) : M Unit := detachTimer t

/-- The walk of `cascade_timers`. -/
def cascadeWalk (head : Node) : Nat → Node → M Unit
  | 0, _ => stop .hang
  | k + 1, curr =>
    if curr = head then pure ()
    else do
      let t ← listEntry curr
      let next ← nextOf curr
      setLinks fun l => l.del .null curr
      internalAddTimer t
      cascadeWalk head k next

def cascadeTimers (fuel n : Nat) : M Unit := do
  let s ← get
  let head := Node.vec n (s.index n)
  let curr ← nextOf head
  cascadeWalk head fuel curr
  setLinks fun l => l.initListHead head
  modify fun s => s.setIndex n ((s.index n + 1) % 64)

/-- The cascade from `tvecs[n]` on, with `left` vectors left. -/
def cascadeFrom (fuel : Nat) : Nat → Nat → M Unit
  | 0, _ => pure ()
  | left + 1, n => do
    cascadeTimers fuel n
    let s ← get
    if s.index n = 1 then
      cascadeFrom fuel left (n + 1)

/-- The walk over `queued` at the end of an iteration. -/
def requeue : Nat → Node → M Unit
  | 0, _ => stop .hang
  | k + 1, curr =>
    if curr = .queued then pure ()
    else do
      let t ← listEntry curr
      let next ← nextOf curr
      internalAddTimer t
      requeue k next

/-! ## Steps -/

inductive Event where
  /-- A caller sets the expiry of a timer that is not pending and adds it. -/
  | add (t : Nat) (expires : BitVec 32)
  | del (t : Nat)
  | tick
  /-- `timer_bh`. -/
  | bh
  /-- `run_timer_list` goes on to the next of its points. -/
  | go
  /-- The handler returns. -/
  | ret
  deriving DecidableEq

/-- The test of the loop and the part up to `repeat`. -/
def doLoop (fuel : Nat) : M Unit := do
  let s ← get
  if (s.ticks - s.timerJiffies).slt 0 then
    modify fun s => s.setPhase .idle
  else
    setLinks fun l => l.initListHead .queued
    if s.index 0 = 0 then
      cascadeFrom fuel 4 1
    modify fun s => { s with running := true, phase := .serve }

/-- The part between `repeat` and the call of a handler or the end of the iteration. -/
def doServe (fuel : Nat) : M Unit := do
  let s ← get
  let head := Node.vec 0 (s.index 0)
  let curr ← nextOf head
  if curr ≠ head then
    let t ← listEntry curr
    detachTimer t
    modify fun s => s.setPhase (.handler t)
  else
    modify fun s => { s with
      running := false
      timerJiffies := s.timerJiffies + 1
      index := Function.update s.index 0 ((s.index 0 + 1) % 256) }
    let first ← nextOf .queued
    requeue fuel first
    modify fun s => s.setPhase .loop

def doEvent (fuel : Nat) : Event → M Unit
  | .add t e => do
    let s ← get
    if s.pending t = false then
      modify fun s => s.setExpires t e
    addTimer t
  | .del t => delTimer t
  | .tick => modify fun s => { s with ticks := s.ticks + 1 }
  | .bh => modify fun s => s.setPhase .loop
  | .go => do
    let s ← get
    if s.phase = .loop then doLoop fuel else doServe fuel
  | .ret => modify fun s => s.setPhase .serve

/-- Calls come from outside of `run_timer_list` or from a handler. The clock does not run `2 ^ 31` ticks
ahead of `run_timer_list`. -/
def Enabled (s : State) : Event → Prop
  | .add _ _ | .del _ => s.phase = .idle ∨ ∃ t, s.phase = .handler t
  | .tick => s.phase = .idle ∧ s.ticks - s.timerJiffies ≠ 0x7fffffff
  | .bh => s.phase = .idle
  | .go => s.phase = .loop ∨ s.phase = .serve
  | .ret => ∃ t, s.phase = .handler t

def Step (s : State) (e : Event) (t : State) : Prop :=
  Enabled s e ∧ ∃ fuel, doEvent fuel e s = .ok ((), t)

/-- After `init_timervecs`, with timers that went through `init_timer`. -/
def State.init (expires : Nat → BitVec 32) : State where
  links :=
    let f : Node → Node := fun n =>
      match n with
      | .timer _ => .null
      | n => n
    ⟨f, f⟩
  expires := expires
  ticks := 0
  timerJiffies := 0
  index := fun _ => 0
  running := false
  phase := .idle

end Frog.Timer
