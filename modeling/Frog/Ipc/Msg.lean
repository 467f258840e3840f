import Frog.Lib.Chain
import Frog.Lib.Prog
import Frog.Lib.Runs

/-!
# Messages between processes

`core/ipc/ipc.c` and `sys_sendrec` of `core/usr/syscall-init.c`. The system call enters through an
interrupt gate, so a call runs alone until it blocks; between two calls any process that is not
blocked may be the next to run. `BOTH` is a send with a receive behind it.

A pointer to a TCB is the pid that `pid2proc` finds it under.
-/

namespace Frog.Ipc

set_option autoImplicit false
open Prog

/-- `pid_t`, an unsigned 32-bit number. -/
abbrev Pid := Nat

def anyTask : Pid := 0xffffffff

def noTask : Pid := 0xfffffff7

/-- `-10` as a `pid_t`. -/
def intrTask : Pid := 0xfffffff6

/-- `NR_TASKS + NR_PROCS`, which is `TASK_MAX` too. -/
def taskMax : Nat := 40

/-- `HARD_INT`. -/
def hardInt : Nat := 1

/-- `message`, with its 56 bytes of payload. -/
structure Message where
  mSource : Pid
  mType : Nat
  data : BitVec 448
  deriving DecidableEq

/-- What `reset_msg` leaves. -/
def Message.zero : Message := ⟨0, 0, 0⟩

/-- The part of a TCB that messages use: `p_flags` as its two bits, and whether the status is
`THREAD_TASK_BLOCKED`. -/
structure Tcb where
  pMessage : Message
  pRecvfrom : Pid
  pSendto : Pid
  sending : Bool
  receiving : Bool
  pIntrPresent : Bool
  pSendingQueue : Option Pid
  pNextSending : Option Pid
  blocked : Bool

/-- `init_thread` clears the TCB. -/
def Tcb.new : Tcb := ⟨Message.zero, 0, 0, false, false, false, none, none, false⟩

/-- The system call a process is inside of. -/
inductive Call where
  | none | send | receive
  deriving DecidableEq

/-- `all` is `thread_all_list`. -/
structure State where
  all : List Pid
  tcb : Pid → Tcb
  call : Pid → Call

def State.init (pids : List Pid) : State := ⟨pids, fun _ => Tcb.new, fun _ => .none⟩

/-- `panic` is a failed `ASSERT`, `deadlock` the `PANIC` of `msg_send`, `fault` the use of a null
pointer, `hang` a loop that does not end. -/
inductive Stop where
  | panic | deadlock | fault | hang
  deriving DecidableEq

abbrev M := Prog Stop State

namespace State

def setTcb (s : State) (p : Pid) (t : Tcb) : State := { s with tcb := Function.update s.tcb p t }

def setCall (s : State) (p : Pid) (c : Call) : State :=
  { s with call := Function.update s.call p c }

def next (s : State) (p : Pid) : Option Pid := (s.tcb p).pNextSending

def head (s : State) (p : Pid) : Option Pid := (s.tcb p).pSendingQueue

def setNext (s : State) (p : Pid) (o : Option Pid) : State :=
  s.setTcb p { s.tcb p with pNextSending := o }

def setHead (s : State) (p : Pid) (o : Option Pid) : State :=
  s.setTcb p { s.tcb p with pSendingQueue := o }

@[simp] theorem setTcb_all (s : State) (p : Pid) (t : Tcb) : (s.setTcb p t).all = s.all := rfl

@[simp] theorem setTcb_call (s : State) (p : Pid) (t : Tcb) : (s.setTcb p t).call = s.call := rfl

@[simp] theorem setCall_all (s : State) (p : Pid) (c : Call) : (s.setCall p c).all = s.all := rfl

@[simp] theorem setCall_tcb (s : State) (p : Pid) (c : Call) : (s.setCall p c).tcb = s.tcb := rfl

@[simp] theorem setTcb_self (s : State) (p : Pid) (t : Tcb) : (s.setTcb p t).tcb p = t :=
  Function.update_self ..

@[simp] theorem setTcb_of_ne {s : State} {p q : Pid} {t : Tcb} (h : q ≠ p) :
    (s.setTcb p t).tcb q = s.tcb q := Function.update_of_ne h ..

@[simp] theorem setTcb_setTcb (s : State) (p : Pid) (t t' : Tcb) :
    (s.setTcb p t).setTcb p t' = s.setTcb p t' := by
  simp [setTcb]

@[simp] theorem setCall_self (s : State) (p : Pid) (c : Call) : (s.setCall p c).call p = c :=
  Function.update_self ..

theorem setTcb_same (s : State) (p : Pid) : s.setTcb p (s.tcb p) = s := by
  rw [setTcb, Function.update_eq_self]

theorem setCall_same {s : State} {p : Pid} {c : Call} (h : s.call p = c) : s.setCall p c = s := by
  rw [setCall, Function.update_eq_self_iff.mpr h.symm]

@[simp] theorem setCall_of_ne {s : State} {p q : Pid} {c : Call} (h : q ≠ p) :
    (s.setCall p c).call q = s.call q := Function.update_of_ne h ..

end State

def tcbAt (p : Pid) : M Tcb := do
  let s ← get
  pure (s.tcb p)

def setTcb (p : Pid) (t : Tcb) : M Unit :=
  modify fun s => s.setTcb p t

def setNext (p : Pid) (o : Option Pid) : M Unit :=
  modify fun s => s.setNext p o

def setHead (p : Pid) (o : Option Pid) : M Unit :=
  modify fun s => s.setHead p o

def setCall (p : Pid) (c : Call) : M Unit :=
  modify fun s => s.setCall p c

/-- The TCB behind `pid2proc`; `e` is what a null result leads to. -/
def pid2proc (id : Pid) (e : Stop) : M Tcb := do
  let s ← get
  check (id ∈ s.all) e
  pure (s.tcb id)

/-- The loop of `detect_cycle`. -/
def detectWalk (src : Pid) : Nat → Pid → M Bool
  | 0, _ => stop .hang
  | n + 1, proc => do
    let t ← pid2proc proc .fault
    if t.sending then
      if t.pSendto = src then pure true
      else detectWalk src n t.pSendto
    else pure false

/-- No walk without a repetition is longer than the list of threads. -/
def detectCycle (src dest : Pid) : M Bool := do
  let s ← get
  detectWalk src (s.all.length + 1) dest

def threadUnblock (p : Pid) : M Unit := do
  let t ← tcbAt p
  check (t.blocked = true) .panic
  setTcb p { t with blocked := false }

def threadAuthBlock (p : Pid) : M Unit := do
  let t ← tcbAt p
  setTcb p { t with blocked := true }

/-- Append `sender` to the sending queue of `dest`. -/
def enqueue (sender dest : Pid) : M Unit := do
  let s ← get
  match s.head dest with
  | some p =>
    let last ← need (Chain.walkEnd s.next (s.all.length + 1) p) .hang
    setNext last (some sender)
  | none => setHead dest (some sender)
  setNext sender none

def msgSend (sender dest : Pid) (msg : Message) : M Unit := do
  let d ← pid2proc dest .panic
  let cycle ← detectCycle sender dest
  check (cycle = false) .deadlock
  -- `&&` binds stronger than `||` in the source's condition
  if d.receiving ∧ d.pRecvfrom = sender ∨ d.pRecvfrom = anyTask then
    check (0 < d.pMessage.mSource) .panic
    setTcb dest { d with pMessage := msg, receiving := false, pRecvfrom := noTask }
    threadUnblock dest
  else
    let t ← tcbAt sender
    check (t.receiving = false) .panic
    setTcb sender { t with sending := true, pSendto := dest, pMessage := msg }
    enqueue sender dest
    threadAuthBlock sender

/-- The sender whose message is taken, with the one before it in the queue. -/
def findSender (receiver src : Pid) : M (Option (Pid × Option Pid)) := do
  let s ← get
  if src = anyTask then
    pure ((s.head receiver).map fun p => (p, none))
  else if src < taskMax then
    let f ← pid2proc src .fault
    if f.sending ∧ f.pSendto = receiver then
      check (s.head receiver ≠ none) .panic
      let prev ← need (Chain.walkTo s.next src (s.all.length + 1) none (s.head receiver)) .hang
      let r ← tcbAt receiver
      check (r.sending = false ∧ r.receiving = false) .panic
      pure (some (src, prev))
    else pure none
  else pure none

/-- Take `sender` out of the queue of `receiver`. -/
def dequeue (receiver sender : Pid) (prev : Option Pid) : M Unit := do
  let s ← get
  if s.head receiver = some sender then
    check (prev = none) .panic
    setHead receiver (s.next sender)
  else
    let q ← need prev .panic
    setNext q (s.next sender)
  setNext sender none

/-- `msg_receive` up to its return, with the caller's buffer, or up to the point where it blocks. -/
def msgReceive (receiver src : Pid) (msg : Message) : M (Option Message) := do
  let r ← tcbAt receiver
  -- again `&&` binds stronger than `||`
  if r.pIntrPresent ∧ src = anyTask ∨ src = intrTask then
    setTcb receiver { r with
      pMessage := { Message.zero with mSource := intrTask, mType := hardInt }
      pIntrPresent := false }
    pure (some msg)
  else
    match ← findSender receiver src with
    | some (p, prev) =>
      dequeue receiver p prev
      let f ← tcbAt p
      check (0 < f.pMessage.mSource) .panic
      setTcb p { f with pMessage := Message.zero, pSendto := noTask, sending := false }
      threadUnblock p
      pure (some f.pMessage)
    | none =>
      setTcb receiver { r with receiving := true, pMessage := msg, pRecvfrom := src }
      threadAuthBlock receiver
      pure none

def notifyIntr (taskNr : Pid) : M Unit := do
  let p ← pid2proc taskNr .fault
  if p.receiving ∧ (p.pRecvfrom = intrTask ∨ p.pRecvfrom = anyTask) then
    setTcb taskNr { p with
      pMessage := { p.pMessage with mSource := intrTask, mType := hardInt }
      pIntrPresent := false
      receiving := false
      pRecvfrom := noTask }
    check (p.sending = false) .panic
    threadUnblock taskNr
    check (p.pSendto = noTask) .panic
  else
    setTcb taskNr { p with pIntrPresent := true }

/-! ## System calls and interrupts -/

inductive Event where
  | send (p dest : Pid) (msg : Message)
  | receive (p src : Pid) (msg : Message)
  | resume (p : Pid)
  | notify (p : Pid)

/-- The assertions of `sys_sendrec`. -/
def checkTarget (caller srcDest : Pid) : M Unit := do
  check (0 < srcDest ∧ srcDest < taskMax ∨ srcDest = anyTask ∨ srcDest = intrTask) .panic
  check (caller ≠ srcDest) .panic

/-- The message with the source `sys_sendrec` stamps on it. -/
abbrev Message.stamp (m : Message) (p : Pid) : Message := { m with mSource := p }

/-- One event; the result is the caller's buffer when a receive returns. -/
def doEvent : Event → M (Option Message)
  | .send p dest msg => do
    checkTarget p dest
    msgSend p dest (msg.stamp p)
    let t ← tcbAt p
    setCall p (if t.blocked then .send else .none)
    pure none
  | .receive p src msg => do
    checkTarget p src
    let r ← msgReceive p src (msg.stamp p)
    setCall p (if r.isSome then .none else .receive)
    pure r
  | .resume p => do
    let s ← get
    setCall p .none
    pure (if s.call p = .receive then some (s.tcb p).pMessage else none)
  | .notify p => do
    notifyIntr p
    pure none

/-- A process that runs and is outside of a call may make one; one that was woken goes on. -/
def Enabled (s : State) : Event → Prop
  | .send p _ _ | .receive p _ _ => p ∈ s.all ∧ (s.tcb p).blocked = false ∧ s.call p = .none
  | .resume p => p ∈ s.all ∧ (s.tcb p).blocked = false ∧ s.call p ≠ .none
  | .notify p => p ∈ s.all

def Step (s : State) (l : Event × Option Message) (t : State) : Prop :=
  Enabled s l.1 ∧ doEvent l.1 s = .ok (l.2, t)

/-! ## Rules for the primitives -/

section Rules
variable {E : Stop → Prop} {s : State} {p : Pid}

@[simp] theorem wp_tcbAt {Q : Tcb → State → Prop} : wp E (tcbAt p) Q s ↔ Q (s.tcb p) s := Iff.rfl

@[simp] theorem wp_setTcb {Q : Unit → State → Prop} {t : Tcb} :
    wp E (setTcb p t) Q s ↔ Q () (s.setTcb p t) := Iff.rfl

@[simp] theorem wp_setNext {Q : Unit → State → Prop} {o : Option Pid} :
    wp E (setNext p o) Q s ↔ Q () (s.setNext p o) := Iff.rfl

@[simp] theorem wp_setHead {Q : Unit → State → Prop} {o : Option Pid} :
    wp E (setHead p o) Q s ↔ Q () (s.setHead p o) := Iff.rfl

@[simp] theorem wp_setCall {Q : Unit → State → Prop} {c : Call} :
    wp E (setCall p c) Q s ↔ Q () (s.setCall p c) := Iff.rfl

@[simp] theorem wp_pid2proc {Q : Tcb → State → Prop} {e : Stop} :
    wp E (pid2proc p e) Q s ↔ (p ∈ s.all → Q (s.tcb p) s) ∧ (p ∉ s.all → E e) := by
  simp [pid2proc]

@[simp] theorem wp_threadUnblock {Q : Unit → State → Prop} :
    wp E (threadUnblock p) Q s ↔
      ((s.tcb p).blocked = true → Q () (s.setTcb p { s.tcb p with blocked := false })) ∧
        ((s.tcb p).blocked = false → E .panic) := by
  simp [threadUnblock]

@[simp] theorem wp_threadAuthBlock {Q : Unit → State → Prop} :
    wp E (threadAuthBlock p) Q s ↔ Q () (s.setTcb p { s.tcb p with blocked := true }) := Iff.rfl

end Rules

/-! ## Changing links -/

/-- The same but for the links of the queues. -/
structure Relinked (s t : State) : Prop where
  all_eq : t.all = s.all
  call_eq : t.call = s.call
  tcb_eq : ∀ p, { t.tcb p with pSendingQueue := none, pNextSending := none } =
    { s.tcb p with pSendingQueue := none, pNextSending := none }

section Links
variable {s t : State} {p q : Pid} {o : Option Pid}

theorem Relinked.trans {u : State} (h : Relinked s t) (h' : Relinked t u) : Relinked s u :=
  ⟨h'.all_eq.trans h.all_eq, h'.call_eq.trans h.call_eq, fun p => (h'.tcb_eq p).trans (h.tcb_eq p)⟩

theorem relinked_setNext : Relinked s (s.setNext p o) := by
  refine ⟨rfl, rfl, fun q => ?_⟩
  unfold State.setNext
  by_cases hq : q = p
  · subst hq
    rw [State.setTcb_self]
  · rw [State.setTcb_of_ne hq]

theorem relinked_setHead : Relinked s (s.setHead p o) := by
  refine ⟨rfl, rfl, fun q => ?_⟩
  unfold State.setHead
  by_cases hq : q = p
  · subst hq
    rw [State.setTcb_self]
  · rw [State.setTcb_of_ne hq]

/-- A change of the other fields makes no difference. -/
theorem Relinked.modify (h : Relinked s t) (p : Pid) (f : Tcb → Tcb)
    (hf : ∀ r : Tcb, { f r with pSendingQueue := none, pNextSending := none } =
      f { r with pSendingQueue := none, pNextSending := none }) :
    Relinked (s.setTcb p (f (s.tcb p))) (t.setTcb p (f (t.tcb p))) := by
  refine ⟨h.all_eq, h.call_eq, fun q => ?_⟩
  by_cases hq : q = p
  · subst hq
    rw [State.setTcb_self, State.setTcb_self, hf, hf, h.tcb_eq q]
  · rw [State.setTcb_of_ne hq, State.setTcb_of_ne hq]
    exact h.tcb_eq q

theorem Relinked.setCall (h : Relinked s t) (p : Pid) (c : Call) :
    Relinked (s.setCall p c) (t.setCall p c) := by
  refine ⟨h.all_eq, ?_, h.tcb_eq⟩
  rw [State.setCall, State.setCall, h.call_eq]

theorem next_setTcb {t : Tcb} : (s.setTcb p t).next = Function.update s.next p t.pNextSending := by
  funext q
  by_cases hq : q = p
  · simp [State.next, hq]
  · simp [State.next, hq]

@[simp] theorem next_setNext : (s.setNext p o).next = Function.update s.next p o := next_setTcb

@[simp] theorem next_setHead : (s.setHead p o).next = s.next := by
  rw [State.setHead, next_setTcb]
  exact Function.update_eq_self_iff.mpr rfl

theorem head_setTcb {t : Tcb} : (s.setTcb p t).head = Function.update s.head p t.pSendingQueue := by
  funext q
  by_cases hq : q = p
  · simp [State.head, hq]
  · simp [State.head, hq]

@[simp] theorem head_setNext : (s.setNext p o).head = s.head := by
  rw [State.setNext, head_setTcb]
  exact Function.update_eq_self_iff.mpr rfl

@[simp] theorem head_setHead : (s.setHead p o).head = Function.update s.head p o := head_setTcb

end Links

end Frog.Ipc
