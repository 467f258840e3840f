import Frog.Bitmap
import Frog.Thread.Sched

/-!
# Processes

`core/thread/exit.c`, the pids of `core/thread/threads.c` and `sys_fork` of `core/thread/fork.c`, on
what makes a process the child of another. System calls run with the interrupts off, so a call is
one step up to the next lock it may have to wait for. A TCB is named by the page it is in; a page
that was given back gets a new name when it is used again.
-/

namespace Frog.Proc

set_option autoImplicit false
open Prog Thread

abbrev Pid := Nat

abbrev Addr := Nat

/-- `status` does not tell the running thread from the ready ones; the `parent_pid` -1 is `none`. -/
structure Tcb where
  pid : Pid
  parentPid : Option Pid
  exitStatus : BitVec 32
  status : Status
  nameLength : Nat
  pgdir : Bool

inductive Site where
  | user
  /-- In `sys_fork`, the child `c` has its pid and is in no list. -/
  | forking (c : Addr)
  /-- In `thread_start` or `process_execute`, likewise. -/
  | starting (c : Addr)
  /-- At the head of the loop of `sys_wait`. -/
  | wait
  /-- In `release_pid`, before it has the lock. -/
  | reaping (pid : Pid)
  /-- In `release_proc_resource`. -/
  | exiting
  /-- Behind the last `thread_block` of `sys_exit`. -/
  | exited
  deriving DecidableEq

/-- `next` is a page that was never used; `all` is `thread_all_list`. -/
structure State where
  all : List Addr
  tcb : Addr → Tcb
  site : Addr → Site
  pidBm : Bitmap
  next : Addr

abbrev M := Prog Stop State

namespace State

def setTcb (s : State) (a : Addr) (t : Tcb) : State := { s with tcb := Function.update s.tcb a t }

def setSite (s : State) (a : Addr) (k : Site) : State := { s with site := Function.update s.site a k }

def setStatus (s : State) (a : Addr) (x : Status) : State := s.setTcb a { s.tcb a with status := x }

end State

def tcbAt (a : Addr) : M Tcb := do
  let s ← get
  pure (s.tcb a)

def setTcb (a : Addr) (t : Tcb) : M Unit := modify fun s => s.setTcb a t

def goto (a : Addr) (k : Site) : M Unit := modify fun s => s.setSite a k

def setStatus (a : Addr) (x : Status) : M Unit := modify fun s => s.setStatus a x

/-! ## Pids -/

def pidStart : Pid := 1

/-- `find_block_bitmap` hands a full map's -1 to `set_value_bitmap`, whose assertion fails. -/
def allocatePid : M Pid := do
  let s ← get
  let pos ← need (s.pidBm.findBlock 1) .panic
  modify fun s => { s with pidBm := s.pidBm.setValue pos true }
  pure (pidStart + pos)

def releasePid (pid : Pid) : M Unit := do
  check (pidStart ≤ pid) .panic
  let s ← get
  check (pid - pidStart < s.pidBm.mapBytesLength * 8) .panic
  modify fun s => { s with pidBm := s.pidBm.setValue (pid - pidStart) false }

/-! ## New processes -/

def getKernelPage : M Addr := do
  let s ← get
  modify fun s => { s with next := s.next + 1 }
  pure s.next

/-- `thread_start` and `process_execute` up to the lists; the latter makes a page directory. -/
def threadStart (p : Addr) (nameLength : Nat) (pgdir : Bool) : M Addr := do
  let c ← getKernelPage
  let pid ← allocatePid
  setTcb c ⟨pid, none, 0, .ready, nameLength, pgdir⟩
  goto c .user
  goto p (.starting c)
  pure c

/-- `sys_fork` up to the next allocation of memory. -/
def sysFork (p : Addr) : M Addr := do
  let c ← getKernelPage
  let t ← tcbAt p
  check (t.pgdir = true) .panic
  let pid ← allocatePid
  setTcb c { t with pid := pid, status := .ready, parentPid := some t.pid }
  goto c .user
  goto p (.forking c)
  pure c

/-- The rest of these functions; `list_find_element` never compares the last element. -/
def linkChild (p : Addr) : M Unit := do
  let s ← get
  let c ← match s.site p with
    | .forking c => do
      let t ← tcbAt c
      check (t.nameLength < 11) .panic
      setTcb c { t with nameLength := t.nameLength + 5 }
      pure c
    | .starting c => pure c
    | _ => stop .fault
  check (c ∉ s.all.dropLast) .panic
  modify fun s => { s with all := s.all ++ [c] }
  goto p .user

/-- `sys_fork` finds no memory: it returns -1, and the child keeps its page and its pid. -/
def dropChild (p : Addr) : M Unit := do
  let s ← get
  match s.site p with
  | .forking _ => goto p .user
  | _ => stop .fault

/-- `sys_execv` on the name. -/
def sysExecv (p : Addr) (nameLength : Nat) : M Unit := do
  check (nameLength < 16) .panic
  let t ← tcbAt p
  setTcb p { t with nameLength := nameLength }

/-! ## Ends -/

/-- `thread_exit` up to the lock in `release_pid`, with the argument of that call. The page is given
back before its pid is read; with the interrupts off nobody takes it in between. -/
def threadExit (c : Addr) : M Pid := do
  setStatus c .died
  modify fun s => { s with all := s.all.erase c }
  let t ← tcbAt c
  pure t.pid

/-- How `sys_wait` goes on. -/
inductive Outcome where
  | child (c : Addr) (pid : Pid) (status : BitVec 32)
  | error
  | blocked
  deriving DecidableEq

/-- One pass of the loop of `sys_wait`. -/
def sysWait (p : Addr) : M Outcome := do
  let s ← get
  let pid := (s.tcb p).pid
  match s.all.find? fun c => (s.tcb c).parentPid = some pid ∧ (s.tcb c).status = .hanging with
  | some c =>
    let t ← tcbAt c
    let released ← threadExit c
    goto p (.reaping released)
    pure (.child c t.pid t.exitStatus)
  | none =>
    match s.all.find? fun c => (s.tcb c).parentPid = some pid with
    | none =>
      goto p .user
      pure .error
    | some _ =>
      goto p .wait
      setStatus p .waiting
      pure .blocked

/-- The end of `sys_wait`. -/
def sysWaitEnd (p : Addr) : M Unit := do
  let s ← get
  match s.site p with
  | .reaping pid =>
    releasePid pid
    goto p .user
  | _ => stop .fault

/-- `proc_init_adopt_a_child` on every thread of the list. -/
def State.adopt (s : State) (pid : Pid) : State :=
  { s with tcb := fun c =>
      if c ∈ s.all ∧ (s.tcb c).parentPid = some pid then { s.tcb c with parentPid := some 1 }
      else s.tcb c }

/-- `sys_exit` up to the release of the resources. -/
def sysExit (p : Addr) (status : BitVec 32) : M Unit := do
  let t ← tcbAt p
  setTcb p { t with exitStatus := status }
  check (t.parentPid ≠ none) .panic
  modify fun s => s.adopt t.pid
  goto p .exiting

/-- The rest of `sys_exit`. -/
def sysExitWake (p : Addr) : M Unit := do
  let s ← get
  let parent ← need (s.all.find? fun q => some (s.tcb q).pid = (s.tcb p).parentPid) .fault
  if (s.tcb parent).status = .waiting then
    setStatus parent .ready
  setStatus p .hanging
  goto p .exited

/-! ## Steps -/

inductive Act where
  | fork (p : Addr)
  | start (p : Addr) (nameLength : Nat) (pgdir : Bool)
  | link (p : Addr)
  | drop (p : Addr)
  | exec (p : Addr) (nameLength : Nat)
  | exit (p : Addr) (status : BitVec 32)
  | wake (p : Addr)
  | wait (p : Addr)
  | release (p : Addr)
  /-- A wait for something else. -/
  | sleep (p : Addr)
  /-- The end of that wait; a process in `sys_wait` only looks again. -/
  | rouse (p : Addr)

/-- What a call of `sys_wait` returned. -/
structure Return where
  waiter : Addr
  child : Addr
  pid : Pid
  status : BitVec 32

/-- The processes with what they are to each other, whatever their pids: `maker` is the process that
forked, `parent` the one that is to wait. -/
structure World where
  sys : State
  maker : Addr → Option Addr
  parent : Addr → Option Addr
  exits : List (Addr × BitVec 32)
  returns : List Return

/-- `thread_init` makes `init` first. -/
def initProc : Addr := 0

namespace World

/-- A new TCB. -/
def bear (w : World) (t : State) (c : Addr) (p : Option Addr) : World :=
  { w with
    sys := t
    maker := Function.update w.maker c p
    parent := Function.update w.parent c p }

/-- The children of `p` are left to init. -/
def bereave (w : World) (t : State) (p : Addr) (status : BitVec 32) : World :=
  { w with
    sys := t
    parent := fun c => if c ∈ w.sys.all ∧ w.parent c = some p then some initProc else w.parent c
    exits := w.exits ++ [(p, status)] }

def returned (w : World) (t : State) (p : Addr) : Outcome → World
  | .child c pid status => { w with sys := t, returns := w.returns ++ [⟨p, c, pid, status⟩] }
  | _ => { w with sys := t }

/-- `p` can go on, and stands at `k`. -/
def At (w : World) (p : Addr) (k : Site) : Prop :=
  p ∈ w.sys.all ∧ (w.sys.tcb p).status = .ready ∧ w.sys.site p = k

def Step (w : World) (e : Act) (w' : World) : Prop :=
  match e with
  | .fork p => w.At p .user ∧ ∃ c t, sysFork p w.sys = .ok (c, t) ∧ w' = w.bear t c (some p)
  | .start p n d => w.At p .user ∧ ∃ c t, threadStart p n d w.sys = .ok (c, t) ∧ w' = w.bear t c none
  | .link p => (∃ c, w.At p (.forking c) ∨ w.At p (.starting c)) ∧
    ∃ t, linkChild p w.sys = .ok ((), t) ∧ w' = { w with sys := t }
  | .drop p => (∃ c, w.At p (.forking c)) ∧
    ∃ t, dropChild p w.sys = .ok ((), t) ∧ w' = { w with sys := t }
  | .exec p n => w.At p .user ∧ ∃ t, sysExecv p n w.sys = .ok ((), t) ∧ w' = { w with sys := t }
  | .exit p v => w.At p .user ∧ ∃ t, sysExit p v w.sys = .ok ((), t) ∧ w' = w.bereave t p v
  | .wake p => w.At p .exiting ∧ ∃ t, sysExitWake p w.sys = .ok ((), t) ∧ w' = { w with sys := t }
  | .wait p => (w.At p .user ∨ w.At p .wait) ∧
    ∃ r t, sysWait p w.sys = .ok (r, t) ∧ w' = w.returned t p r
  | .release p => (∃ pid, w.At p (.reaping pid)) ∧
    ∃ t, sysWaitEnd p w.sys = .ok ((), t) ∧ w' = { w with sys := t }
  | .sleep p => p ∈ w.sys.all ∧ (w.sys.tcb p).status = .ready ∧ w.sys.site p ≠ .wait ∧
    w' = { w with sys := w.sys.setStatus p .waiting }
  | .rouse p => p ∈ w.sys.all ∧ (w.sys.tcb p).status = .waiting ∧
    w' = { w with sys := w.sys.setStatus p .ready }

end World

/-! ## The start -/

/-- `init` has the pid 1; the main thread gives up the pid 2 for 0; the idle thread has the pid 3. -/
def State.boot (bits : Bytes.Store) : State where
  all := [initProc, 1, 2]
  tcb
    | 0 => ⟨1, none, 0, .ready, 4, true⟩
    | 1 => ⟨0, none, 0, .ready, 4, false⟩
    | _ => ⟨3, none, 0, .ready, 4, false⟩
  site := fun _ => .user
  pidBm := ⟨fun i => if i = 0 then 0x07 else if i < 4096 then 0 else bits i, 4096⟩
  next := 3

def World.boot (bits : Bytes.Store) : World := ⟨.boot bits, fun _ => none, fun _ => none, [], []⟩

end Frog.Proc
