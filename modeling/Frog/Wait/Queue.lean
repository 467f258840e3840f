import Frog.Lib.Prog
import Frog.Lib.RingList
import Frog.Thread.Sched

/-!
# Wait queues

`core/include/sys/wait.h`, the queue functions of `core/thread/fork.c` and `try_to_wake_up` and
`__wake_up` of `core/thread/sched.c`. The entries of the queues and the tags of the threads are nodes
of one heap of links.
-/

namespace Frog.Wait

set_option autoImplicit false
open Prog
open Frog.Thread (Tid Status)

inductive Node (E : Type) where
  | null
  /-- `task_list` of a `wait_queue_head_t`. -/
  | head (q : Nat)
  /-- `task_list` of a `wait_queue_t`. -/
  | entry (e : E)
  /-- `thread_ready_list` -/
  | ready
  /-- `general_tag` of a thread. -/
  | tag (p : Tid)
  deriving DecidableEq

/-- `task_status_t` -/
def statusBits : Status → BitVec 32
  | .running => 0
  | .ready => 1
  | .waiting => 2
  | .hanging => 4
  | .blocked => 8
  | .died => 16

/-- `bug` is `WQ_BUG`, `fault` the use of a pointer that is none, `hang` a walk that does not end. -/
inductive Stop where
  | bug | fault | hang
  deriving DecidableEq

/-- `magic` and `headMagic` say whose `__magic` is its own address. -/
structure State (E : Type) where
  links : Links (Node E)
  task : E → Tid
  magic : E → Bool
  headMagic : Nat → Bool
  status : Tid → Status

abbrev M (E : Type) := Prog Stop (State E)

variable {E : Type} [DecidableEq E]

namespace State

def setLinks (s : State E) (l : Links (Node E)) : State E := { s with links := l }

def setStatus (s : State E) (p : Tid) (x : Status) : State E :=
  { s with status := Function.update s.status p x }

omit [DecidableEq E] in
@[simp] theorem setStatus_links (s : State E) (p : Tid) (x : Status) :
    (s.setStatus p x).links = s.links := rfl

end State

/-! ## `wait.h` -/

def checkMagic (e : E) : M E Unit := do
  let s ← get
  check (s.magic e = true) .bug

def checkMagicWqhead (q : Nat) : M E Unit := do
  let s ← get
  check (s.headMagic q = true) .bug

def wqCheckListHead (q : Nat) : M E Unit := do
  let s ← get
  check (s.links.next (.head q) ≠ .null ∧ s.links.prev (.head q) ≠ .null) .bug

def initWaitqueueEntry (e : E) (p : Tid) : M E Unit :=
  modify fun s => { s with
    task := Function.update s.task e p
    magic := Function.update s.magic e true }

def addWaitQueue (q : Nat) (e : E) : M E Unit := do
  checkMagicWqhead q
  checkMagic e
  wqCheckListHead q
  modify fun s => s.setLinks (s.links.add (.entry e) (.head q))

def removeWaitQueue (_q : Nat) (e : E) : M E Unit := do
  checkMagic e
  modify fun s => s.setLinks (s.links.del .null (.entry e))

/-! ## `sched.c` -/

def taskOnReadylist (s : State E) (p : Tid) : Bool := s.links.next (.tag p) ≠ .tag p

def addToReadylist (p : Tid) : M E Unit :=
  modify fun s => s.setLinks (s.links.addTail (.tag p) .ready)

def tryToWakeUp (p : Tid) : M E Bool := do
  modify fun s => s.setStatus p .ready
  let s ← get
  if taskOnReadylist s p then
    pure false
  else do
    addToReadylist p
    pure true

/-- `list_entry` to the `wait_queue_t` of a node. -/
def waitQueueOf : Node E → M E E
  | .entry e => pure e
  | _ => stop .fault

/-- The loop of `__wake_up_common` with `tmp` at a node, for at most so many nodes. -/
def wakeUpLoop (q : Nat) (mode : BitVec 32) : Nat → Node E → M E Unit
  | 0, _ => stop .hang
  | n + 1, tmp =>
    if tmp = .head q then pure ()
    else do
      let curr ← waitQueueOf tmp
      checkMagic curr
      let s ← get
      if statusBits (s.status (s.task curr)) &&& mode ≠ 0 then
        let woken ← tryToWakeUp (s.task curr)
        if woken = true then
          pure ()
        else
          let s ← get
          wakeUpLoop q mode n (s.links.next tmp)
      else
        wakeUpLoop q mode n (s.links.next tmp)

/-- Neither `nr_exclusive` nor `sync` is read. -/
def wakeUpCommon (n : Nat) (q : Nat) (mode : BitVec 32) (_nrExclusive _sync : Nat) : M E Unit := do
  checkMagicWqhead q
  wqCheckListHead q
  let s ← get
  wakeUpLoop q mode n (s.links.next (.head q))

/-- `__wake_up` -/
def wakeUp (n : Nat) (q : Option Nat) (mode : BitVec 32) (nr : Nat) : M E Unit :=
  match q with
  | some q => wakeUpCommon n q mode nr 0
  | none => pure ()

/-! ## What a wake-up should do -/

/-- The queue `q` has the entries `es`, and the threads `ps` are on the ready list. -/
structure Waiting (s : State E) (q : Nat) (es : List E) (ps : List Tid) : Prop where
  queue : RingList s.links (.head q) (es.map .entry)
  ready : RingList s.links .ready (ps.map .tag)
  headMagic : s.headMagic q = true
  magic : ∀ e ∈ es, s.magic e = true

/-- The status of the thread is in the mode. -/
def InMode (mode : BitVec 32) (s : State E) (p : Tid) : Prop :=
  statusBits (s.status p) &&& mode ≠ 0

instance (mode : BitVec 32) (s : State E) (p : Tid) : Decidable (InMode mode s p) :=
  inferInstanceAs (Decidable (_ ≠ _))

/-- The threads that a wake-up with this mode is for. -/
def Addressed (mode : BitVec 32) (s : State E) (es : List E) (p : Tid) : Prop :=
  (∃ e ∈ es, s.task e = p) ∧ InMode mode s p

/-- A wake-up returns, with every addressed thread ready and once on the ready list, and every other
thread with the status it had and on the ready list if it was. -/
def WakesAll (s : State E) (q : Nat) (mode : BitVec 32) (nr : Nat) (es : List E) (ps : List Tid) :
    Prop :=
  ∃ (n : Nat) (t : State E) (ps' : List Tid), wakeUp n (some q) mode nr s = .ok ((), t) ∧
    RingList t.links .ready (ps'.map .tag) ∧
    (∀ p, Addressed mode s es p → t.status p = .ready ∧ ps'.count p = 1) ∧
    ∀ p, ¬ Addressed mode s es p → t.status p = s.status p ∧ ps'.count p = ps.count p

/-- The loop ends at a thread in the mode whose tag is linked to itself. -/
def stopsAt (mode : BitVec 32) (s : State E) (p : Tid) : Bool :=
  InMode mode s p ∧ taskOnReadylist s p = false

/-- What the loop goes through, with the first thread that ends it. -/
def upTo (stop : Tid → Bool) : List Tid → List Tid
  | [] => []
  | p :: ps => if stop p then [p] else p :: upTo stop ps

/-- Of the addressed threads all are on the ready list but one, at which the loop ends, and those
that are queued only behind it are ready already. -/
def Reaches (s : State E) (mode : BitVec 32) (es : List E) (ps : List Tid) : Prop :=
  ∀ p, Addressed mode s es p →
    (p ∈ ps ∨ (es.map s.task).find? (stopsAt mode s) = some p) ∧
    (s.status p = .ready ∨ p ∈ upTo (stopsAt mode s) (es.map s.task))

variable {s t : State E} {q : Nat} {mode : BitVec 32} {nr : Nat} {es : List E} {ps : List Tid}
  {p : Tid}

/-! ## The loop -/

/-- The state that a walk over the entries of the threads `ws` ends in. -/
def State.woken (s : State E) (mode : BitVec 32) (ws : List Tid) : State E :=
  { s with
    status := fun p =>
      if p ∈ upTo (stopsAt mode s) ws ∧ InMode mode s p then .ready else s.status p
    links := match ws.find? (stopsAt mode s) with
      | some p => s.links.addTail (.tag p) .ready
      | none => s.links }

omit [DecidableEq E] in
theorem State.ext {s t : State E} (h1 : s.links = t.links) (h2 : s.task = t.task)
    (h3 : s.magic = t.magic) (h4 : s.headMagic = t.headMagic) (h5 : s.status = t.status) :
    s = t := by
  cases s
  cases t
  simp_all

theorem woken_nil : s.woken mode [] = s := by
  simp [State.woken, upTo]

/-- A thread that is not in the mode is passed. -/
theorem woken_skip {ws : List Tid} (hm : ¬ InMode mode s p) :
    s.woken mode (p :: ws) = s.woken mode ws := by
  have hstop : stopsAt mode s p = false := by
    simp [stopsAt, hm]
  refine State.ext ?_ rfl rfl rfl ?_
  · simp [State.woken, hstop]
  · funext r
    have hr : r = p → ¬ InMode mode s r := fun he => he ▸ hm
    simp only [State.woken, upTo, hstop, Bool.false_eq_true, if_false, List.mem_cons]
    by_cases hrp : r = p
    · simp [hr hrp]
    · simp [hrp]

/-- A thread in the mode that is linked somewhere is made ready and passed. -/
theorem woken_pass {ws : List Tid} (hm : InMode mode s p) (hl : taskOnReadylist s p = true) :
    s.woken mode (p :: ws) = (s.setStatus p .ready).woken mode ws := by
  have hstop : stopsAt mode s p = false := by
    simp [stopsAt, hl]
  have hlinked : ∀ r, taskOnReadylist (s.setStatus p .ready) r = taskOnReadylist s r := fun r => rfl
  have hstatus : ∀ r, r ≠ p → (s.setStatus p .ready).status r = s.status r := fun r hr =>
    Function.update_of_ne hr ..
  have hmode : ∀ r, r ≠ p → (InMode mode (s.setStatus p .ready) r ↔ InMode mode s r) := by
    intro r hr
    rw [InMode, InMode, hstatus r hr]
  have hsame : stopsAt mode (s.setStatus p .ready) = stopsAt mode s := by
    funext r
    by_cases hr : r = p
    · simp [stopsAt, hlinked, hr, hl]
    · simp [stopsAt, hlinked, hmode r hr]
  refine State.ext ?_ rfl rfl rfl ?_
  · simp [State.woken, hstop, hsame]
  · funext r
    simp only [State.woken, upTo, hstop, hsame, Bool.false_eq_true, if_false, List.mem_cons]
    by_cases hr : r = p
    · simp [hr, hm, State.setStatus]
    · simp [hr, hmode r hr, hstatus r hr]

/-- The loop ends at the first thread in the mode that is linked to itself. -/
theorem woken_stop {ws : List Tid} (hm : InMode mode s p) (hl : taskOnReadylist s p = false) :
    s.woken mode (p :: ws) =
      (s.setStatus p .ready).setLinks (s.links.addTail (.tag p) .ready) := by
  have hstop : stopsAt mode s p = true := by
    simp [stopsAt, hm, hl]
  refine State.ext ?_ rfl rfl rfl ?_
  · simp [State.woken, State.setLinks, hstop]
  · funext r
    simp only [State.woken, upTo, hstop, if_true, List.mem_singleton]
    by_cases hr : r = p
    · simp [hr, hm, State.setStatus, State.setLinks]
    · simp [hr, State.setStatus, State.setLinks]

section Entry
variable {e : E} {n : Nat}

theorem wakeUpLoop_skip (he : s.magic e = true) (hm : ¬ InMode mode s (s.task e)) :
    wakeUpLoop q mode (n + 1) (.entry e) s = wakeUpLoop q mode n (s.links.next (.entry e)) s := by
  rw [wakeUpLoop, if_neg (by simp)]
  simp only [waitQueueOf, checkMagic, bind_apply, pure_apply, get_apply, check, he, if_true]
  rw [if_neg (by exact hm)]

theorem wakeUpLoop_pass (he : s.magic e = true) (hm : InMode mode s (s.task e))
    (hl : taskOnReadylist s (s.task e) = true) :
    wakeUpLoop q mode (n + 1) (.entry e) s =
      wakeUpLoop q mode n (s.links.next (.entry e)) (s.setStatus (s.task e) .ready) := by
  have htry : tryToWakeUp (s.task e) s = .ok (false, s.setStatus (s.task e) .ready) := by
    have hl' : taskOnReadylist (s.setStatus (s.task e) .ready) (s.task e) = true := hl
    simp only [tryToWakeUp, bind_apply, modify_apply, get_apply]
    rw [if_pos hl']
    rfl
  rw [wakeUpLoop, if_neg (by simp)]
  simp only [waitQueueOf, checkMagic, bind_apply, pure_apply, get_apply, check, he, if_true]
  rw [if_pos (by exact hm), bind_ok htry, if_neg (by simp)]
  rfl

theorem wakeUpLoop_stop (he : s.magic e = true) (hm : InMode mode s (s.task e))
    (hl : taskOnReadylist s (s.task e) = false) :
    wakeUpLoop q mode (n + 1) (.entry e) s = .ok ((),
      (s.setStatus (s.task e) .ready).setLinks (s.links.addTail (.tag (s.task e)) .ready)) := by
  have htry : tryToWakeUp (s.task e) s = .ok (true,
      (s.setStatus (s.task e) .ready).setLinks (s.links.addTail (.tag (s.task e)) .ready)) := by
    have hl' : taskOnReadylist (s.setStatus (s.task e) .ready) (s.task e) = false := hl
    simp only [tryToWakeUp, bind_apply, modify_apply, get_apply]
    rw [if_neg (by simp [hl'])]
    rfl
  rw [wakeUpLoop, if_neg (by simp)]
  simp only [waitQueueOf, checkMagic, bind_apply, pure_apply, get_apply, check, he, if_true]
  rw [if_pos (by exact hm), bind_ok htry, if_pos rfl]
  rfl

end Entry

/-- With more passes than entries the loop ends. With fewer it may. -/
theorem wakeUpLoop_spec {a : Node E} {n : Nat}
    (hp : LinkPath s.links a (es.map .entry) (.head q)) (hm : ∀ e ∈ es, s.magic e = true) :
    wakeUpLoop q mode n (s.links.next a) s = .ok ((), s.woken mode (es.map s.task)) ∨
      n ≤ es.length ∧ wakeUpLoop q mode n (s.links.next a) s = .error .hang := by
  induction es generalizing s a n with
  | nil =>
    cases n with
    | zero => exact .inr ⟨Nat.le_refl _, rfl⟩
    | succ n =>
      left
      rw [hp.1, wakeUpLoop, if_pos rfl, List.map_nil, woken_nil]
      rfl
  | cons e es ih =>
    cases n with
    | zero => exact .inr ⟨Nat.zero_le _, rfl⟩
    | succ n =>
      obtain ⟨h1, -, h3⟩ := hp
      have he : s.magic e = true := hm e (by simp)
      have hes : ∀ e ∈ es, s.magic e = true := fun e he => hm e (by simp [he])
      have hlen : n ≤ es.length → n + 1 ≤ (e :: es).length := Nat.succ_le_succ
      rw [h1, List.map_cons]
      by_cases hmode : InMode mode s (s.task e)
      · cases hl : taskOnReadylist s (s.task e) with
        | true =>
          -- only the status has changed, and the walk goes on
          rw [wakeUpLoop_pass he hmode hl, woken_pass hmode hl]
          exact (ih (s := s.setStatus (s.task e) .ready) h3 hes).imp id (And.imp_left hlen)
        | false =>
          left
          rw [wakeUpLoop_stop he hmode hl, woken_stop hmode hl]
      · rw [wakeUpLoop_skip he hmode, woken_skip hmode]
        exact (ih h3 hes).imp id (And.imp_left hlen)

omit [DecidableEq E] in
theorem path_next_ne_null {l : Links (Node E)} {a b : Node E}
    (h : LinkPath l a (es.map .entry) b) (hb : b ≠ .null) : l.next a ≠ .null := by
  cases es with
  | nil => exact h.1 ▸ hb
  | cons e es => exact h.1 ▸ by simp

omit [DecidableEq E] in
theorem Waiting.prev_ne_null (w : Waiting s q es ps) : s.links.prev (.head q) ≠ .null := by
  intro he
  have hm := he ▸ w.queue.prev_mem
  simp at hm

theorem Waiting.wakeUp_ok {n : Nat} (w : Waiting s q es ps) :
    wakeUp n (some q) mode nr s = .ok ((), s.woken mode (es.map s.task)) ∨
      n ≤ es.length ∧ wakeUp n (some q) mode nr s = .error .hang := by
  have hrun : wakeUp n (some q) mode nr s =
      wakeUpLoop q mode n (s.links.next (.head q)) s := by
    have hlinks : s.links.next (.head q) ≠ .null ∧ s.links.prev (.head q) ≠ .null :=
      ⟨path_next_ne_null w.queue.path (by simp), w.prev_ne_null⟩
    simp only [wakeUp, wakeUpCommon, checkMagicWqhead, wqCheckListHead, bind_apply, get_apply, check,
      w.headMagic, if_true, if_pos hlinks, pure_apply]
  rw [hrun]
  exact wakeUpLoop_spec w.queue.path w.magic

/-! ## Who is woken -/

theorem mem_of_mem_upTo {stop : Tid → Bool} {ws : List Tid} (h : p ∈ upTo stop ws) : p ∈ ws := by
  induction ws with
  | nil => exact h
  | cons w ws ih =>
    rw [upTo] at h
    by_cases hw : stop w = true
    · rw [if_pos hw, List.mem_singleton] at h
      simp [h]
    · rw [if_neg hw, List.mem_cons] at h
      rcases h with rfl | h
      · simp
      · simp [ih h]

omit [DecidableEq E] in
theorem addressed_of_mem (hp : p ∈ es.map s.task) (hm : InMode mode s p) :
    Addressed mode s es p := by
  obtain ⟨e, he, rfl⟩ := List.mem_map.mp hp
  exact ⟨⟨e, he, rfl⟩, hm⟩

/-- The threads on the ready list after a wake-up. -/
def readied (s : State E) (mode : BitVec 32) (es : List E) (ps : List Tid) : List Tid :=
  ps ++ ((es.map s.task).find? (stopsAt mode s)).toList

theorem mem_readied :
    p ∈ readied s mode es ps ↔ p ∈ ps ∨ (es.map s.task).find? (stopsAt mode s) = some p := by
  simp [readied]

theorem Waiting.ready_woken (w : Waiting s q es ps) :
    RingList (s.woken mode (es.map s.task)).links .ready ((readied s mode es ps).map .tag) := by
  rw [readied]
  cases hf : (es.map s.task).find? (stopsAt mode s) with
  | none => simpa [State.woken, hf] using w.ready
  | some p =>
    have hstop : stopsAt mode s p = true := List.find?_some hf
    have hself : s.links.next (.tag p) = .tag p := by
      simpa [stopsAt, taskOnReadylist] using (of_decide_eq_true hstop).2
    have hnew : Node.tag p ∉ (Node.ready :: ps.map Node.tag : List (Node E)) := by
      intro hm
      rcases List.mem_cons.mp hm with hm | hm
      · cases hm
      · exact w.ready.next_ne hm hself
    simpa [State.woken, hf] using w.ready.addTail hnew

omit [DecidableEq E] in
theorem nodup_of_ready {l : Links (Node E)} (r : RingList l .ready (ps.map .tag)) : ps.Nodup :=
  List.Nodup.of_map _ (List.nodup_cons.mp r.nodup).2

theorem Waiting.status_woken_iff (hp : Addressed mode s es p) :
    (s.woken mode (es.map s.task)).status p = .ready ↔
      s.status p = .ready ∨ p ∈ upTo (stopsAt mode s) (es.map s.task) := by
  by_cases hu : p ∈ upTo (stopsAt mode s) (es.map s.task)
  · simp [State.woken, hu, hp.2]
  · simp [State.woken, hu]

theorem status_woken_of_not (hp : ¬ Addressed mode s es p) :
    (s.woken mode (es.map s.task)).status p = s.status p := by
  have hout : ¬ (p ∈ upTo (stopsAt mode s) (es.map s.task) ∧ InMode mode s p) := by
    intro hc
    exact hp (addressed_of_mem (mem_of_mem_upTo hc.1) hc.2)
  simp [State.woken, hout]

theorem mem_readied_of_not (hp : ¬ Addressed mode s es p) :
    p ∈ readied s mode es ps ↔ p ∈ ps := by
  rw [mem_readied]
  refine or_iff_left fun hf => hp (addressed_of_mem (List.mem_of_find?_eq_some hf) ?_)
  have hstop : stopsAt mode s p = true := List.find?_some hf
  exact (of_decide_eq_true hstop).1

theorem Waiting.wakesAll_of_reaches (w : Waiting s q es ps) (h : Reaches s mode es ps) :
    WakesAll s q mode nr es ps := by
  have hring : RingList (s.woken mode (es.map s.task)).links .ready _ := w.ready_woken
  refine ⟨es.length + 1, s.woken mode (es.map s.task), readied s mode es ps, ?_, hring, ?_, ?_⟩
  · apply w.wakeUp_ok.resolve_right
    omega
  · intro p hp
    obtain ⟨h1, h2⟩ := h p hp
    exact ⟨(status_woken_iff hp).mpr h2,
      List.count_eq_one_of_mem (nodup_of_ready hring) (mem_readied.mpr h1)⟩
  · intro p hp
    refine ⟨status_woken_of_not hp, ?_⟩
    rw [(nodup_of_ready hring).count, (nodup_of_ready w.ready).count]
    simp only [mem_readied_of_not hp]

theorem Waiting.reaches_of_wakesAll (w : Waiting s q es ps) (h : WakesAll s q mode nr es ps) :
    Reaches s mode es ps := by
  obtain ⟨n, t, ps', hrun, hring, hall, -⟩ := h
  have hok : wakeUp n (some q) mode nr s = _ ∨ _ := w.wakeUp_ok
  rcases hok with hr | hr
  · rw [hr] at hrun
    cases hrun
    have hmap := hring.unique w.ready_woken
    have hps : ps' = readied s mode es ps :=
      List.map_injective_iff.mpr (fun a b hab => Node.tag.inj hab) hmap
    subst hps
    intro p hp
    obtain ⟨h1, h2⟩ := hall p hp
    have hmem : p ∈ readied s mode es ps := List.count_pos_iff.mp (by omega)
    exact ⟨mem_readied.mp hmem, (status_woken_iff hp).mp h1⟩
  · rw [hr.2] at hrun
    cases hrun

/-- A wake-up reaches every thread it is for exactly when all of these but the first that is not on
the ready list are on it already, and none sleeps behind that one. -/
theorem wakesAll_iff (w : Waiting s q es ps) :
    WakesAll s q mode nr es ps ↔ Reaches s mode es ps :=
  ⟨w.reaches_of_wakesAll, w.wakesAll_of_reaches⟩

/-- The threads `es` wait in the queue `0`, and the ready list is empty. -/
def asleep (es : List Nat) : State Nat where
  links := es.foldr (fun e l => l.add (.entry e) (.head 0)) ⟨id, id⟩
  task := id
  magic _ := true
  headMagic _ := true
  status _ := .waiting

theorem asleep_links {es : List Nat} (hd : es.Nodup) :
    RingList (asleep es).links (.head 0) (es.map .entry) ∧
      RingList (asleep es).links .ready [] := by
  induction es with
  | nil => exact ⟨⟨⟨rfl, rfl⟩, by simp⟩, ⟨⟨rfl, rfl⟩, by simp⟩⟩
  | cons e es ih =>
    obtain ⟨hq, hr⟩ := ih (List.nodup_cons.mp hd).2
    have hnew : Node.entry e ∉ Node.head 0 :: es.map Node.entry := by
      simpa using (List.nodup_cons.mp hd).1
    have hnext : (asleep es).links.next (.head 0) ≠ .ready := by
      intro he
      have hm := hq.next_mem
      rw [he] at hm
      simp at hm
    have hlinks : (asleep (e :: es)).links = (asleep es).links.add (.entry e) (.head 0) := rfl
    refine ⟨hq.add hnew, hr.congr ?_ ?_⟩
    · simp [hlinks, Links.add]
    · simp [hlinks, Links.add, hnext.symm]

theorem asleep_waiting {es : List Nat} (hd : es.Nodup) : Waiting (asleep es) 0 es [] :=
  ⟨(asleep_links hd).1, (asleep_links hd).2, rfl, fun _ _ => rfl⟩

/-- Three threads are queued: `0` is on the ready list, `1` sleeps and `2` runs. -/
def queued : State Nat :=
  { asleep [0, 1, 2] with
    links := (asleep [0, 1, 2]).links.addTail (.tag 0) .ready
    status := fun p => if p = 0 then .ready else if p = 1 then .waiting else .running }

theorem queued_waiting : Waiting queued 0 [0, 1, 2] [0] := by
  obtain ⟨hq, hr⟩ := @asleep_links [0, 1, 2] (by decide)
  refine ⟨hq.congr (fun x hx => ?_) fun x hx => ?_, hr.addTail (by simp), rfl, fun _ _ => rfl⟩
  · refine Links.addTail_next_of_ne ?_ ?_ <;> rintro rfl
    · simp at hx
    · rw [hr.path.2] at hx
      simp at hx
  · refine Links.addTail_prev_of_ne ?_ ?_ <;> rintro rfl <;> simp at hx

/-- The one that is ready is passed over, and the one that sleeps is woken. -/
theorem wakesAll_three : WakesAll queued 0 3 1 [0, 1, 2] [0] := by
  refine (wakesAll_iff queued_waiting).mpr ?_
  rintro p ⟨⟨e, he, rfl⟩, hmode⟩
  simp only [List.mem_cons, List.not_mem_nil, or_false] at he
  rcases he with rfl | rfl | rfl
  · exact ⟨.inl (by decide), .inl rfl⟩
  · exact ⟨.inr (by decide), .inr (by decide)⟩
  · exact absurd hmode (by decide)

/-- The second of two sleeping threads is not woken. -/
theorem second_sleeps_on :
    Waiting (asleep [0, 1]) 0 [0, 1] [] ∧ ¬ WakesAll (asleep [0, 1]) 0 2 1 [0, 1] [] := by
  have hw : Waiting (asleep [0, 1]) 0 [0, 1] [] := asleep_waiting (by decide)
  refine ⟨hw, fun h => ?_⟩
  have haddr : Addressed 2 (asleep [0, 1]) [0, 1] 1 := ⟨⟨1, by simp, rfl⟩, by decide⟩
  rcases (hw.reaches_of_wakesAll h 1 haddr).1 with hm | hm
  · simp at hm
  · exact absurd hm (by decide)

end Frog.Wait
