import Frog.Lib.Bytes

/-!
# The byte FIFO

`core/lib/fifo.c`. The positions run to `FIFO_QUEUE_MAX` and not to the size, so that a queue of another
size leaves its buffer; the memory behind it is taken to keep what is stored there.
-/

namespace Frog.Fifo

set_option autoImplicit false
open Bytes

/-- `FIFO_QUEUE_MAX` -/
def queueMax : Nat := 1024

/-- The memory from `buf` on, with the indices that were used. -/
structure Buffer where
  cells : Store
  used : List Nat

def Buffer.load (b : Buffer) (i : Nat) : Byte × Buffer := (b.cells i, { b with used := i :: b.used })

def Buffer.store (b : Buffer) (i : Nat) (c : Byte) : Buffer :=
  ⟨Function.update b.cells i c, i :: b.used⟩

/-- `FIFO` -/
structure Queue where
  putP : Nat
  getP : Nat
  size : Nat
  free : Nat
  buf : Buffer

def initFifo (size : Nat) (buf : Store) : Queue where
  putP := 0
  getP := 0
  size := size
  free := size
  buf := ⟨buf, []⟩

def nextPos (pos : Nat) : Nat := (pos + 1) % queueMax

def fifoPutData (data : Byte) (queue : Queue) : BitVec 32 × Queue :=
  if queue.free = 0 then (-1, queue)
  else (0, { queue with
    buf := queue.buf.store queue.putP data
    putP := nextPos queue.putP
    free := queue.free - 1 })

/-- The buffer is read before the test. -/
def fifoGetData (queue : Queue) : Byte × Queue :=
  let (ret, buf) := queue.buf.load queue.getP
  if queue.free = queue.size then (-1, { queue with buf := buf })
  else (ret, { queue with buf := buf, getP := nextPos queue.getP, free := queue.free + 1 })

def fifoRest (queue : Queue) : Nat := queue.size - queue.free

def fifoLength (queue : Queue) : Nat :=
  if queue.putP ≤ queue.getP then queueMax - (queue.getP - queue.putP)
  else queue.putP - queue.getP

/-! ## Runs -/

inductive Call where
  | put (c : Byte)
  | get
  deriving DecidableEq

inductive Answer where
  | put (ret : BitVec 32)
  | get (ret : Byte)
  deriving DecidableEq

def step (q : Queue) : Call → Answer × Queue
  | .put c => let (ret, q) := fifoPutData c q; (.put ret, q)
  | .get => let (ret, q) := fifoGetData q; (.get ret, q)

def run (q : Queue) : List Call → List Answer × Queue
  | [] => ([], q)
  | c :: cs =>
    let (a, q) := step q c
    let (as, q) := run q cs
    (a :: as, q)

/-! ## The bounded queue -/

def specStep (size : Nat) (xs : List Byte) : Call → Answer × List Byte
  | .put c => if xs.length < size then (.put 0, xs ++ [c]) else (.put (-1), xs)
  | .get =>
    match xs with
    | [] => (.get (-1), [])
    | x :: xs => (.get x, xs)

def specRun (size : Nat) (xs : List Byte) : List Call → List Answer × List Byte
  | [] => ([], xs)
  | c :: cs =>
    let (a, xs) := specStep size xs c
    let (as, xs) := specRun size xs cs
    (a :: as, xs)

/-- From the empty queue the calls answer as the bounded queue does, stay in the buffer and leave a
queue whose lengths are right. -/
def Refines (size : Nat) (buf : Store) (calls : List Call) : Prop :=
  (run (initFifo size buf) calls).1 = (specRun size [] calls).1 ∧
    (∀ i ∈ (run (initFifo size buf) calls).2.buf.used, i < size) ∧
    fifoLength (run (initFifo size buf) calls).2 = (specRun size [] calls).2.length ∧
    fifoRest (run (initFifo size buf) calls).2 = (specRun size [] calls).2.length

/-- The calls stay in the buffer when `got` bytes have been got and `n` are stored: a put that is
accepted comes before the positions pass the size, and so does every get. -/
def Stays (size : Nat) : Nat → Nat → List Call → Prop
  | _, _, [] => True
  | got, n, .put _ :: cs =>
    if n < size then (got + n) % queueMax < size ∧ Stays size got (n + 1) cs
    else Stays size got n cs
  | got, n, .get :: cs =>
    got % queueMax < size ∧
      if n = 0 then Stays size got 0 cs else Stays size (got + 1) (n - 1) cs

/-- The queue `q` of which `got` bytes have been got holds the bytes `xs`. -/
structure Holds (q : Queue) (size got : Nat) (xs : List Byte) : Prop where
  capacity : q.size = size
  fits : xs.length ≤ size
  free : q.free + xs.length = size
  putP : q.putP = (got + xs.length) % queueMax
  getP : q.getP = got % queueMax
  cells : ∀ k (h : k < xs.length), q.buf.cells ((got + k) % queueMax) = xs[k]

variable {q : Queue} {size got : Nat} {xs : List Byte} {cs : List Call} {buf : Store}

theorem initFifo_holds : Holds (initFifo size buf) size 0 [] :=
  ⟨rfl, Nat.zero_le _, rfl, rfl, rfl, fun _ h => absurd h (Nat.not_lt_zero _)⟩

theorem nextPos_mod (n : Nat) : nextPos (n % queueMax) = (n + 1) % queueMax := by
  unfold nextPos queueMax
  omega

/-- An accepted put. -/
theorem Holds.put (h : Holds q size got xs) (hmax : size ≤ queueMax) (hlt : xs.length < size)
    (c : Byte) :
    ∃ q', fifoPutData c q = (0, q') ∧ Holds q' size got (xs ++ [c]) ∧
      q'.buf.used = (got + xs.length) % queueMax :: q.buf.used := by
  have hfree : q.free ≠ 0 := by
    have hsum := h.free
    omega
  unfold fifoPutData
  rw [if_neg hfree]
  refine ⟨_, rfl, ⟨h.capacity, ?_, ?_, ?_, h.getP, ?_⟩, ?_⟩
  · rw [List.length_append]
    exact hlt
  · have hsum := h.free
    rw [List.length_append, List.length_singleton]
    change q.free - 1 + (xs.length + 1) = size
    omega
  · change nextPos q.putP = _
    rw [h.putP, nextPos_mod, List.length_append]
    rfl
  · intro k hk
    rw [List.length_append, List.length_singleton] at hk
    change Function.update q.buf.cells q.putP c ((got + k) % queueMax) = _
    by_cases hlast : k = xs.length
    · subst hlast
      rw [h.putP, Function.update_self, List.getElem_append_right (Nat.le_refl _)]
      simp
    · -- the positions of stored bytes differ
      have hklt : k < xs.length := by omega
      rw [Function.update_of_ne, h.cells k hklt, List.getElem_append_left hklt]
      rw [h.putP]
      unfold queueMax at *
      omega
  · change q.putP :: q.buf.used = _
    rw [h.putP]

theorem Holds.put_full (h : Holds q size got xs) (hfull : ¬ xs.length < size) (c : Byte) :
    fifoPutData c q = (-1, q) := by
  have hsum := h.free
  have hfits := h.fits
  unfold fifoPutData
  rw [if_pos (by omega)]

theorem Holds.get {x : Byte} (h : Holds q size got (x :: xs)) :
    ∃ q', fifoGetData q = (x, q') ∧ Holds q' size (got + 1) xs ∧
      q'.buf.used = got % queueMax :: q.buf.used := by
  have hsum := h.free
  rw [List.length_cons] at hsum
  have hfree : q.free ≠ q.size := by
    rw [h.capacity]
    omega
  have hcell := h.cells 0 (Nat.succ_pos _)
  rw [Nat.add_zero, ← h.getP] at hcell
  simp only [fifoGetData, Buffer.load, if_neg hfree]
  refine ⟨_, Prod.ext hcell rfl, ⟨h.capacity, ?_, ?_, ?_, ?_, ?_⟩, ?_⟩
  · omega
  · change q.free + 1 + xs.length = size
    omega
  · change q.putP = _
    rw [h.putP, List.length_cons]
    congr 1
    omega
  · change nextPos q.getP = _
    rw [h.getP, nextPos_mod]
  · intro k hk
    have hnext := h.cells (k + 1) (Nat.succ_lt_succ hk)
    rw [List.getElem_cons_succ] at hnext
    rw [← hnext, show got + 1 + k = got + (k + 1) by omega]
  · change q.getP :: q.buf.used = _
    rw [h.getP]

theorem Holds.get_empty (h : Holds q size got []) :
    ∃ q', fifoGetData q = (-1, q') ∧ Holds q' size got [] ∧
      q'.buf.used = got % queueMax :: q.buf.used := by
  have hfree : q.free = q.size := by
    rw [h.capacity]
    exact h.free
  simp only [fifoGetData, Buffer.load, if_pos hfree]
  refine ⟨_, rfl, ⟨h.capacity, h.fits, h.free, h.putP, h.getP, fun k hk => absurd hk (Nat.not_lt_zero k)⟩, ?_⟩
  change q.getP :: q.buf.used = _
  rw [h.getP]

/-- A run answers as the bounded queue does, and stays in the buffer exactly if it should. -/
theorem Holds.run (h : Holds q size got xs) (hmax : size ≤ queueMax) (cs : List Call) :
    ∃ got', Holds (run q cs).2 size got' (specRun size xs cs).2 ∧
      (Fifo.run q cs).1 = (specRun size xs cs).1 ∧
      ((∀ i ∈ (Fifo.run q cs).2.buf.used, i < size) ↔
        (∀ i ∈ q.buf.used, i < size) ∧ Stays size got xs.length cs) := by
  induction cs generalizing q got xs with
  | nil => exact ⟨got, h, rfl, by simp [Fifo.run, Stays]⟩
  | cons c cs ih =>
    cases c with
    | put c =>
      unfold Fifo.run specRun Stays
      by_cases hlt : xs.length < size
      · obtain ⟨q', hput, hq', hused⟩ := h.put hmax hlt c
        obtain ⟨got', hrun, hans, hin⟩ := ih hq'
        simp only [step, specStep, hput, if_pos hlt]
        refine ⟨got', hrun, by rw [hans], ?_⟩
        rw [hin, hused, List.length_append, List.length_singleton, List.forall_mem_cons]
        tauto
      · obtain ⟨got', hrun, hans, hin⟩ := ih h
        simp only [step, specStep, h.put_full hlt c, if_neg hlt]
        exact ⟨got', hrun, by rw [hans], hin⟩
    | get =>
      unfold Fifo.run specRun Stays
      cases xs with
      | nil =>
        obtain ⟨q', hget, hq', hused⟩ := h.get_empty
        obtain ⟨got', hrun, hans, hin⟩ := ih hq'
        simp only [step, specStep, hget]
        refine ⟨got', hrun, by rw [hans], ?_⟩
        rw [hin, hused, List.forall_mem_cons, List.length_nil, if_pos rfl]
        tauto
      | cons x xs =>
        obtain ⟨q', hget, hq', hused⟩ := h.get
        obtain ⟨got', hrun, hans, hin⟩ := ih hq'
        simp only [step, specStep, hget]
        refine ⟨got', hrun, by rw [hans], ?_⟩
        rw [hin, hused, List.forall_mem_cons, List.length_cons, if_neg (Nat.succ_ne_zero _),
          Nat.add_sub_cancel]
        tauto

/-! ## Lengths -/

theorem Holds.rest (h : Holds q size got xs) : fifoRest q = xs.length := by
  have hsum := h.free
  unfold fifoRest
  rw [h.capacity]
  omega

/-- An empty queue is taken for a full one. -/
theorem Holds.length_iff (h : Holds q size got xs) (hmax : size ≤ queueMax) :
    fifoLength q = xs.length ↔ xs ≠ [] := by
  have hfits := h.fits
  have hne : xs ≠ [] ↔ xs.length ≠ 0 := by
    rw [ne_eq, ne_eq, List.length_eq_zero_iff]
  unfold fifoLength
  rw [hne, h.putP, h.getP]
  unfold queueMax at *
  split <;> omega

/-- The calls meet the bounded queue exactly when they stay in the buffer and leave a byte in it. -/
theorem refines_iff (hmax : size ≤ queueMax) :
    Refines size buf cs ↔ Stays size 0 0 cs ∧ (specRun size [] cs).2 ≠ [] := by
  obtain ⟨got, hq, hans, hin⟩ := initFifo_holds.run hmax cs
  have hused : (∀ i ∈ (initFifo size buf).buf.used, i < size) := fun i hi => absurd hi List.not_mem_nil
  unfold Refines
  rw [hin, hq.length_iff hmax]
  constructor
  · intro h
    exact ⟨h.2.1.2, h.2.2.1⟩
  · intro h
    exact ⟨hans, ⟨hused, h.1⟩, h.2, hq.rest⟩

theorem refines_two : Refines 2 (fun _ => 0) [.put 7, .put 8, .get] :=
  (refines_iff (by decide)).mpr ⟨by simp [Stays, queueMax], by decide⟩

/-- With a size of two the third byte is stored behind the buffer, and the length of an empty queue is
1024. -/
theorem third_byte_outside :
    ¬ Refines 2 (fun _ => 0) [.put 7, .get, .put 8, .get, .put 9] ∧ ¬ Refines 2 (fun _ => 0) [] := by
  constructor
  · intro h
    exact absurd (h.2.1 2 (by decide)) (by decide)
  · intro h
    exact absurd h.2.2.1 (by decide)

end Frog.Fifo
