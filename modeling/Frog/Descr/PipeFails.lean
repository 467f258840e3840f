import Frog.Descr.PipeExits
import Frog.Mm.Queues

/-!
# A pipe that is not made

`sys_pipe` with the array of its caller and the memory of the kernel, from which the queue takes its
page.
-/

namespace Frog.Descr

set_option autoImplicit false
open Prog
open Fs (File maxFileOpen maxFilesOpenPerProc pipeFlag)

/-- The file table with its users, the memory of the kernel and the caller's array. -/
structure PipeState where
  files : State
  memory : Mm.State
  pipefd : Fin 2 → Int

abbrev P := Prog (Fs.Stop ⊕ Mm.Stop) PipeState

def onFiles {α : Type} (m : M α) : P α := fun s =>
  match m s.files with
  | .ok (a, t) => .ok (a, { s with files := t })
  | .error e => .error (.inl e)

def onMemory {α : Type} (m : Mm.M α) : P α := fun s =>
  match m s.memory with
  | .ok (a, t) => .ok (a, { s with memory := t })
  | .error e => .error (.inr e)

/-- `install_thread_fd` into an element of the array; -1 is no descriptor. -/
def storeFd (p g : Nat) (i : Fin 2) : P Unit := do
  let fd ← onFiles (installThreadFd p (some g))
  let n : Int := match fd with
    | some fd => fd
    | none => -1
  modify fun s => { s with pipefd := Function.update s.pipefd i n }

/-- `sys_pipe`. The slot -1 is written like any other, which is outside of the table. -/
def pipe (p : Nat) : P Int := do
  let slot ← onFiles occupyFileTableSlot
  let queue ← onMemory (Mm.initIoqueue 4096)
  let g ← need slot (.inl .fault)
  if queue = 0 then
    let f ← onFiles (fileAt g)
    onFiles (setFile g { f with fdInode := none })
    pure (-1)
  else
    let q ← onFiles (newObj .queue)
    onFiles (setFile g { fdPos := 2, fdFlag := pipeFlag, fdInode := some q })
    storeFd p g 0
    storeFd p g 1
    pure 0

section Runs
variable {α : Type} {s : PipeState} {p g : Nat}

theorem onFiles_ok {m : M α} {a : α} {t : State} (h : m s.files = .ok (a, t)) :
    onFiles m s = .ok (a, { s with files := t }) := by
  unfold onFiles
  rw [h]

theorem onMemory_ok {m : Mm.M α} {a : α} {t : Mm.State} (h : m s.memory = .ok (a, t)) :
    onMemory m s = .ok (a, { s with memory := t }) := by
  unfold onMemory
  rw [h]

theorem occupyFileTableSlot_apply (f : State) :
    occupyFileTableSlot f = .ok (freeSlot f, f) := rfl

theorem storeFd_ok {i : Fin 2} {o : Option Nat} {f : State}
    (h : installThreadFd p (some g) s.files = .ok (o, f)) :
    ∃ t, storeFd p g i s = .ok ((), t) ∧ t.files = f ∧ t.memory = s.memory :=
  ⟨_, bind_ok (onFiles_ok h), rfl, rfl⟩

/-- A vacant slot is not changed by the NULL. -/
theorem vacate_slot {s : State} (h : (s.files g).fdInode = none) :
    s.setFile g { s.files g with fdInode := none } = s := by
  have hf : ({ s.files g with fdInode := none } : File) = s.files g := by rw [← h]
  unfold State.setFile
  rw [hf, Function.update_eq_self]

/-- With a slot, the call does to the file table what `sysPipe` does with the answer of the
allocator. -/
theorem pipe_sysPipe {queue : Nat} {mem : Mm.State} {made : Bool} {f : State}
    (hslot : freeSlot s.files = some g) (hm : Mm.initIoqueue 4096 s.memory = .ok (queue, mem))
    (h : sysPipe p (queue ≠ 0) s.files = .ok (made, f)) :
    made = decide (queue ≠ 0) ∧ ∃ t, pipe p s = .ok (if made then 0 else -1, t) ∧ t.files = f ∧
      t.memory = mem ∧ (made = false → t.pipefd = s.pipefd) := by
  unfold sysPipe at h
  rw [bind_ok (occupyFileTableSlot_apply _), hslot, bind_ok (need_some g _ _)] at h
  unfold pipe
  rw [bind_ok (onFiles_ok (occupyFileTableSlot_apply _)), bind_ok (onMemory_ok hm), hslot,
    bind_ok (need_some g _ _)]
  by_cases hq : queue = 0
  · rw [if_neg (by simpa using hq)] at h
    cases h
    rw [if_pos hq, bind_ok (onFiles_ok (t := s.files) (a := s.files.files g) rfl)]
    have hvac : (s.files.files g).fdInode = none := by simpa using List.find?_some hslot
    refine ⟨by simp [hq], _, bind_ok (onFiles_ok (a := ()) (t := s.files) ?_), rfl, rfl, fun _ => rfl⟩
    exact congrArg (fun t => Except.ok ((), t)) (vacate_slot hvac)
  · rw [if_pos (by simpa using hq)] at h
    rw [if_neg hq]
    obtain ⟨q, f₁, h₁, h⟩ := bind_eq_ok.mp h
    obtain ⟨_, f₂, h₂, h⟩ := bind_eq_ok.mp h
    obtain ⟨fd, f₃, h₃, h⟩ := bind_eq_ok.mp h
    obtain ⟨fd', f₄, h₄, h⟩ := bind_eq_ok.mp h
    cases h
    rw [bind_ok (onFiles_ok (s := ⟨s.files, mem, s.pipefd⟩) h₁),
      bind_ok (onFiles_ok (s := ⟨f₁, mem, s.pipefd⟩) h₂)]
    obtain ⟨t₁, ht₁, hf₁, hm₁⟩ := storeFd_ok (i := 0) (s := ⟨f₂, mem, s.pipefd⟩) h₃
    subst hf₁
    obtain ⟨t₂, ht₂, hf₂, hm₂⟩ := storeFd_ok (i := 1) h₄
    refine ⟨by simp [hq], t₂, ?_, hf₂, hm₂.trans hm₁, nofun⟩
    rw [bind_ok ht₁]
    exact bind_ok ht₂

theorem installThreadFd_ok (p : Nat) (o : Option Nat) (f : State) :
    ∃ fd t, installThreadFd p o f = .ok (fd, t) := by
  unfold installThreadFd
  rw [bind_ok (get_apply f)]
  cases (List.range maxFilesOpenPerProc).find? fun fd => 3 ≤ fd ∧ f.tables p fd = none with
  | none => exact ⟨none, f, rfl⟩
  | some fd => exact ⟨some fd, f.setEntry p fd o, rfl⟩

theorem sysPipe_ok (hslot : freeSlot s.files = some g) (room : Bool) :
    ∃ f, sysPipe p room s.files = .ok (room, f) ∧ (room = false → f = s.files) := by
  unfold sysPipe
  rw [bind_ok (occupyFileTableSlot_apply _), hslot, bind_ok (need_some g _ _)]
  cases room with
  | false => exact ⟨s.files, rfl, fun _ => rfl⟩
  | true =>
    obtain ⟨fd, f, hf⟩ := installThreadFd_ok p (some g) (s.files.withPipe g)
    obtain ⟨fd', f', hf'⟩ := installThreadFd_ok p (some g) f
    refine ⟨f', ?_, nofun⟩
    exact (bind_ok hf).trans (bind_ok hf')

/-! ## What a failure leaves -/

/-- There is no address or no page for the queue. -/
def NoQueue (m : Mm.State) : Prop :=
  m.kernelViraddr.vaddrBitmap.findBlock 1 = none ∨ (m.pool .kernel).poolBitmap.findBlock 1 = none

/-- A slot, a page or two descriptors are missing. -/
def Lacks (p : Nat) (s : PipeState) : Prop :=
  freeSlot s.files = none ∨ NoQueue s.memory ∨ freeFds s.files p < 2

def FailsUnchanged (p : Nat) (s : PipeState) : Prop :=
  ∃ t, pipe p s = .ok (-1, t) ∧ t.pipefd = s.pipefd ∧ t.files.files = s.files.files ∧
    t.files.tables p = s.files.tables p ∧ t.memory.pool = s.memory.pool

theorem queue_made (hs : Mm.Paged s.memory) (h : ¬ NoQueue s.memory) :
    ∃ queue m, Mm.initIoqueue 4096 s.memory = .ok (queue, m) ∧ queue ≠ 0 := by
  unfold NoQueue at h
  push Not at h
  obtain ⟨pos, hpos⟩ := Option.ne_none_iff_exists'.mp h.1
  obtain ⟨i, hi⟩ := Option.ne_none_iff_exists'.mp h.2
  obtain ⟨m, hm, -⟩ := Mm.initIoqueue_one 4096 hs (by decide) hpos hi
  exact ⟨_, m, hm, by unfold Mm.kHeapStart; omega⟩

/-- The slot -1 stops the call. -/
theorem no_slot_stops (hs : Mm.Paged s.memory) (hslot : freeSlot s.files = none) :
    ∃ e, pipe p s = .error e := by
  have hm : ∃ queue m, Mm.initIoqueue 4096 s.memory = .ok (queue, m) := by
    by_cases hq : NoQueue s.memory
    · obtain ⟨m, hm, -⟩ := Mm.initIoqueue_none 4096 hs (by decide) hq
      exact ⟨0, m, hm⟩
    · obtain ⟨queue, m, hm, -⟩ := queue_made hs hq
      exact ⟨queue, m, hm⟩
  obtain ⟨queue, m, hm⟩ := hm
  refine ⟨.inl .fault, ?_⟩
  unfold pipe
  rw [bind_ok (onFiles_ok (occupyFileTableSlot_apply _)), bind_ok (onMemory_ok hm), hslot]
  rfl

/-- The missing queue is noticed, missing descriptors are not. -/
theorem failed_pipe_iff (hs : Mm.Paged s.memory) : (Lacks p s → FailsUnchanged p s) ↔
    freeSlot s.files ≠ none ∧ (NoQueue s.memory ∨ 2 ≤ freeFds s.files p) := by
  constructor
  · intro h
    have hslot : freeSlot s.files ≠ none := by
      intro hslot
      obtain ⟨t, ht, -⟩ := h (.inl hslot)
      obtain ⟨e, he⟩ := no_slot_stops (p := p) hs hslot
      cases ht.symm.trans he
    refine ⟨hslot, ?_⟩
    by_contra hno
    push Not at hno
    obtain ⟨g, hg⟩ := Option.ne_none_iff_exists'.mp hslot
    obtain ⟨t, ht, -⟩ := h (.inr (.inr hno.2))
    obtain ⟨queue, m, hm, hq⟩ := queue_made hs hno.1
    obtain ⟨f, hf, -⟩ := sysPipe_ok (p := p) hg (decide (queue ≠ 0))
    obtain ⟨-, t', ht', -⟩ := pipe_sysPipe hg hm hf
    rw [if_pos (by simpa using hq)] at ht'
    cases ht.symm.trans ht'
  · rintro ⟨hslot, hroom⟩ hlacks
    have hno : NoQueue s.memory := by
      rcases hlacks with h | h | h
      · exact absurd h hslot
      · exact h
      · exact hroom.resolve_right (by omega)
    obtain ⟨g, hg⟩ := Option.ne_none_iff_exists'.mp hslot
    obtain ⟨m, hm, hpool⟩ := Mm.initIoqueue_none 4096 hs (by decide) hno
    obtain ⟨f, hf, hsame⟩ := sysPipe_ok (p := p) hg (decide (0 ≠ 0))
    obtain ⟨-, t, ht, htf, htm, hfd⟩ := pipe_sysPipe hg hm hf
    rw [hsame (by simp)] at htf
    refine ⟨t, ht, hfd (by simp), ?_, ?_, ?_⟩
    · rw [htf]
    · rw [htf]
    · rw [htm, hpool]

/-- The memory of the kernel with all its addresses in use. -/
def noAddress : Mm.State := { Mm.booted with
  kernelViraddr := ⟨⟨fun _ => 0xff, 1⟩, Mm.kHeapStart⟩ }

theorem noAddress_paged : Mm.Paged noAddress where
  start := rfl
  top := by decide
  self := Mm.booted_paged.self
  tables := Mm.booted_paged.tables
  apart := Mm.booted_paged.apart
  spare := Mm.booted_paged.spare
  pool := Mm.booted_paged.pool
  thread := .inl ⟨rfl, rfl⟩

theorem failed_pipe_no_address : FailsUnchanged 1 ⟨.shell 4, noAddress, fun _ => 0⟩ := by
  have hno : NoQueue noAddress := .inl (by decide)
  exact (failed_pipe_iff noAddress_paged).mpr ⟨by decide, .inl hno⟩ (.inr (.inl hno))

/-- One descriptor is left. -/
def oneDescriptor : PipeState :=
  ⟨{ State.shell 4 with tables := fun _ fd => if fd < 31 then some fd else none }, Mm.booted,
    fun _ => 0⟩

/-- The call returns 0 though the second descriptor is missing, and does not return where there is no
slot. -/
theorem failed_pipe_changes :
    (Lacks 1 oneDescriptor ∧ ∃ t, pipe 1 oneDescriptor = .ok (0, t)) ∧
    Lacks 1 ⟨.shell 128, Mm.booted, fun _ => 0⟩ ∧
      ∃ e, pipe 1 ⟨.shell 128, Mm.booted, fun _ => 0⟩ = .error e := by
  refine ⟨⟨.inr (.inr (by decide)), ?_⟩, .inl (by decide),
    no_slot_stops Mm.booted_paged (by decide)⟩
  obtain ⟨m, hm, -⟩ := Mm.initIoqueue_one (k := 0) (i := 0) 4096 Mm.booted_paged
    (by decide) (by decide) (by decide)
  have hslot : freeSlot oneDescriptor.files = some 4 := by decide
  obtain ⟨f, hf, -⟩ := sysPipe_ok (p := 1) hslot true
  obtain ⟨-, t, ht, -⟩ := pipe_sysPipe hslot hm hf
  exact ⟨t, ht⟩

end Runs

end Frog.Descr
