import Frog.Descr.OpenCalls

/-!
# Open counts of pipes

`fd_pos` of a pipe's slot counts the descriptors that refer to it. `sys_pipe` writes 2 whatever it
could install, a fork adds what the child has, `sys_close` counts in a copy, and `sys_exit` gives back
the page of the slot with the local number of the last descriptor.
-/

namespace Frog.Descr

set_option autoImplicit false
open Prog
open Fs (File Stop maxFileOpen maxFilesOpenPerProc pipeFlag)

/-- `sys_lseek`; `size` is what `fd_inode->i_size` holds. -/
def sysLseek (p : Nat) (fd : Int) (offset : BitVec 32) (whence : Nat) (size : BitVec 32) :
    M (Option (BitVec 32)) := do
  if fd < 0 then pure none
  else
    check (0 < whence ∧ whence < 4) .panic
    let g ← fdLocal2Global p fd.toNat
    let f ← fileAt g
    let _ ← need f.fdInode .fault
    let newPos :=
      if whence = 1 then offset
      else if whence = 2 then BitVec.ofNat 32 f.fdPos + offset
      else size + 1 + (offset - 1)
    if newPos.toInt < 0 ∨ size.toInt < newPos.toInt then pure none
    else
      setFile g { f with fdPos := newPos.toNat }
      pure (some newPos)

inductive PipeCall where
  | pipe (p : Nat) (room : Bool)
  | fork (p c : Nat)
  | close (p : Nat) (fd : Int)
  | lseek (p : Nat) (fd : Int) (offset : BitVec 32) (whence : Nat) (size : BitVec 32)
  | exit (p : Nat)

/-- Pids are at most 32768. -/
def maxPid : Nat := 32768

/-- The page of a new queue holds nothing else; where an inode has its size, a queue has a pointer into
the kernel's memory, which lies from 0xc0100000 on. -/
def PipeCall.Enabled (s : State) : PipeCall → Prop
  | .pipe p room => p ∈ s.live ∧ (room = true → ∃ n, s.page s.next = some n ∧
      ∀ q, (s.heap q).isSome = true → s.page q ≠ some n)
  | .fork p c => p ∈ s.live ∧ c ∉ s.live ∧ c ≤ maxPid
  | .close p _ | .exit p => p ∈ s.live
  | .lseek p fd _ _ size => p ∈ s.live ∧ ∀ g q, s.tables p fd.toNat = some g →
      (s.files g).fdInode = some q → s.heap q = some .queue → 0xc0100000 ≤ size.toNat

def doPipeCall : PipeCall → M Unit
  | .pipe p room => do
    let _ ← sysPipe p room
  | .fork p c => sysFork p c
  | .close p fd => do
    let _ ← sysClose p fd
  | .lseek p fd offset whence size => do
    let _ ← sysLseek p fd offset whence size
  | .exit p => sysExit p

def PipeCall.Step (s : State) (e : PipeCall) (t : State) : Prop :=
  e.Enabled s ∧ doPipeCall e s = .ok ((), t)

/-! ## Counting -/

/-- The descriptors of `p` from `k` on that refer to `g`. -/
def endsFrom (s : State) (p g k : Nat) : Nat :=
  (List.range' k (maxFilesOpenPerProc - k)).countP fun fd => s.tables p fd = some g

/-- The descriptors that refer to the slot `g`. -/
def refs (s : State) (g : Nat) : Nat := (s.live.map fun p => endsFrom s p g 0).sum

structure IsPipe (s : State) (g q : Nat) : Prop where
  flag : (s.files g).fdFlag = pipeFlag
  inode : (s.files g).fdInode = some q

variable {s t u : State} {p c g g' k fd q n : Nat}

theorem endsFrom_congr (h : ∀ fd, k ≤ fd → (t.tables p fd = some g ↔ s.tables p fd = some g)) :
    endsFrom t p g k = endsFrom s p g k := by
  unfold endsFrom
  refine List.countP_congr fun fd hfd => ?_
  rw [decide_eq_true_iff, decide_eq_true_iff]
  exact h fd (List.mem_range'_1.mp hfd).1

theorem refs_congr (hl : t.live = s.live)
    (h : ∀ p ∈ s.live, ∀ fd, t.tables p fd = some g ↔ s.tables p fd = some g) :
    refs t g = refs s g := by
  unfold refs
  rw [hl]
  congr 1
  exact List.map_congr_left fun p hp => endsFrom_congr fun fd _ => h p hp fd

theorem endsFrom_pos : 0 < endsFrom s p g k ↔
    ∃ fd, k ≤ fd ∧ fd < maxFilesOpenPerProc ∧ s.tables p fd = some g := by
  unfold endsFrom
  rw [List.countP_pos_iff]
  simp only [List.mem_range'_1, decide_eq_true_eq]
  refine exists_congr fun fd => ⟨fun ⟨⟨h1, h2⟩, h3⟩ => ⟨h1, by omega, h3⟩,
    fun ⟨h1, h2, h3⟩ => ⟨⟨h1, by omega⟩, h3⟩⟩

/-- One descriptor more. -/
theorem endsFrom_succ (hk : k < maxFilesOpenPerProc) :
    endsFrom s p g k = endsFrom s p g (k + 1) + if s.tables p k = some g then 1 else 0 := by
  unfold endsFrom
  have hlen : maxFilesOpenPerProc - k = maxFilesOpenPerProc - (k + 1) + 1 := by omega
  rw [hlen, List.range'_succ, List.countP_cons]
  simp

theorem endsFrom_le : endsFrom s p g k ≤ maxFilesOpenPerProc := by
  refine List.countP_le_length.trans ?_
  rw [List.length_range']
  exact Nat.sub_le ..

theorem endsFrom_le_refs (hp : p ∈ s.live) : endsFrom s p g 0 ≤ refs s g :=
  List.single_le_sum (fun _ _ => Nat.zero_le _) _ (List.mem_map_of_mem hp)

theorem refs_pos : 0 < refs s g ↔ ∃ p ∈ s.live, 0 < endsFrom s p g 0 := by
  unfold refs
  rw [Nat.pos_iff_ne_zero, Ne, List.sum_eq_zero_iff]
  simp [Nat.pos_iff_ne_zero]

/-- A process comes in. -/
theorem refs_cons (hl : t.live = c :: s.live)
    (h : ∀ p ∈ s.live, ∀ fd, t.tables p fd = some g ↔ s.tables p fd = some g) :
    refs t g = endsFrom t c g 0 + refs s g := by
  unfold refs
  rw [hl, List.map_cons, List.sum_cons]
  congr 2
  exact List.map_congr_left fun p hp => endsFrom_congr fun fd _ => h p hp fd

/-- A process changes its table, or leaves. -/
theorem refs_split (hp : p ∈ s.live) :
    refs s g = endsFrom s p g 0 + ((s.live.erase p).map fun q => endsFrom s q g 0).sum := by
  unfold refs
  have hperm := (List.perm_cons_erase hp).map fun q => endsFrom s q g 0
  rw [hperm.sum_eq, List.map_cons, List.sum_cons]

theorem refs_others (hn : s.live.Nodup) (hl : t.live = s.live) (hp : p ∈ s.live)
    (h : ∀ p' ∈ s.live, p' ≠ p → ∀ fd, t.tables p' fd = some g ↔ s.tables p' fd = some g) :
    refs t g + endsFrom s p g 0 = refs s g + endsFrom t p g 0 := by
  rw [refs_split (hl ▸ hp : p ∈ t.live), refs_split hp, hl]
  have hsum : ((s.live.erase p).map fun q => endsFrom t q g 0) =
      (s.live.erase p).map fun q => endsFrom s q g 0 := by
    refine List.map_congr_left fun q hq => endsFrom_congr fun fd _ => ?_
    obtain ⟨hqp, hq⟩ := hn.mem_erase_iff.mp hq
    exact h q hq hqp fd
  rw [hsum]
  omega

theorem refs_lt (hn : s.live.Nodup) (hb : ∀ p ∈ s.live, p ≤ maxPid) : refs s g < 2 ^ 32 := by
  have hlen : s.live.length ≤ maxPid + 1 := by
    have hsub : s.live ⊆ List.range (maxPid + 1) := fun p hp =>
      List.mem_range.mpr (Nat.lt_succ_of_le (hb p hp))
    have := (List.subperm_of_subset hn hsub).length_le
    rwa [List.length_range] at this
  have hsum : refs s g ≤ s.live.length * maxFilesOpenPerProc := by
    unfold refs
    refine (List.sum_le_card_nsmul _ maxFilesOpenPerProc ?_).trans ?_
    · intro x hx
      obtain ⟨p, -, rfl⟩ := List.mem_map.mp hx
      exact endsFrom_le
    · rw [List.length_map, smul_eq_mul]
  calc refs s g ≤ s.live.length * maxFilesOpenPerProc := hsum
    _ ≤ (maxPid + 1) * maxFilesOpenPerProc := Nat.mul_le_mul_right _ hlen
    _ < 2 ^ 32 := by decide

/-! ## The condition -/

def freeSlot (s : State) : Option Nat :=
  (List.range maxFileOpen).find? fun g => (s.files g).fdInode.isNone

def freeFds (s : State) (p : Nat) : Nat :=
  (List.range maxFilesOpenPerProc).countP fun fd => 3 ≤ fd ∧ s.tables p fd = none

/-- A pipe is made in a slot that no descriptor refers to, the standard ones included, by a process with
room for two; and where the last process with a pipe exits, its last descriptor has the number of the
slot. -/
def Balanced (s : State) : PipeCall → Prop
  | .pipe p room => room = true → ∀ g, freeSlot s = some g → refs s g = 0 ∧ 2 ≤ freeFds s p
  | .exit p => ∀ g q, IsPipe s g q → refs s g = endsFrom s p g 0 →
      0 < endsFrom s p g g ∧ endsFrom s p g (g + 1) = 0
  | .fork _ _ | .close _ _ | .lseek _ _ _ _ _ => True

/-! ## The law -/

structure Counted (s : State) : Prop where
  nodup : s.live.Nodup
  bound : ∀ p ∈ s.live, p ≤ maxPid
  std : ∀ p ∈ s.live, ∀ fd < 3, s.tables p fd = some fd
  fresh : ∀ q, s.next ≤ q → s.heap q = none
  low : ∀ g q, IsPipe s g q → 3 ≤ g
  inj : ∀ g g' q, IsPipe s g q → IsPipe s g' q → g = g'
  count : ∀ g q, IsPipe s g q → (s.files g).fdPos = refs s g ∧ 0 < refs s g
  /-- Nobody has only one end of a pipe. -/
  even : ∀ g q, IsPipe s g q → ∀ p ∈ s.live, 2 ∣ endsFrom s p g 0
  alive : ∀ g q, IsPipe s g q → s.heap q = some .queue
  page : ∀ g q, IsPipe s g q → ∃ n, s.page q = some n ∧
    ∀ r, (s.heap r).isSome = true → s.page r = some n → r = q
  vacant : ∀ g, (s.files g).fdFlag = pipeFlag → (s.files g).fdInode = none → refs s g = 0

/-- What a call does to the pipes. -/
structure PipeLaw (s t : State) : Prop where
  /-- The queue is freed exactly when no descriptor is left, and the slot is vacant then. -/
  freed : ∀ g q, IsPipe s g q → (t.heap q = none ↔ refs t g = 0) ∧
    ((t.files g).fdInode = none ↔ refs t g = 0)
  /-- The pages given back are those of such pipes. -/
  pages : ∃ l, t.freed = s.freed ++ l ∧ l.Nodup ∧
    ∀ n, n ∈ l ↔ ∃ g q, IsPipe s g q ∧ s.page q = some n ∧ refs t g = 0

/-- Processes with files, but without pipes. -/
structure Pipeless (s : State) : Prop where
  nodup : s.live.Nodup
  bound : ∀ p ∈ s.live, p ≤ maxPid
  std : ∀ p ∈ s.live, ∀ fd < 3, s.tables p fd = some fd
  fresh : ∀ q, s.next ≤ q → s.heap q = none
  none : ∀ g, (s.files g).fdFlag ≠ pipeFlag

theorem Pipeless.counted (h : Pipeless s) : Counted s := by
  have hno : ∀ g q, ¬ IsPipe s g q := fun g _ hg => h.none g hg.flag
  exact ⟨h.nodup, h.bound, h.std, h.fresh, fun g q hg => absurd hg (hno g q),
    fun g _ q hg => absurd hg (hno g q), fun g q hg => absurd hg (hno g q),
    fun g q hg => absurd hg (hno g q), fun g q hg => absurd hg (hno g q),
    fun g q hg => absurd hg (hno g q), fun g hg => absurd hg (h.none g)⟩

theorem Counted.lt (h : Counted s) (hp : IsPipe s g q) : (s.files g).fdPos < 2 ^ 32 := by
  rw [(h.count g q hp).1]
  exact refs_lt h.nodup h.bound

theorem Counted.even_refs (h : Counted s) (hp : IsPipe s g q) : 2 ∣ refs s g := by
  refine List.dvd_sum fun n hn => ?_
  obtain ⟨p, hmem, rfl⟩ := List.mem_map.mp hn
  exact h.even g q hp p hmem

/-! ## Calls that leave the pipes alone -/

structure Apart (s t : State) : Prop where
  live : t.live = s.live
  page : t.page = s.page
  freed : t.freed = s.freed
  tables : ∀ p fd g, (s.files g).fdFlag = pipeFlag →
    (t.tables p fd = some g ↔ s.tables p fd = some g)
  std : ∀ p, ∀ fd < 3, t.tables p fd = s.tables p fd
  files : ∀ g, (s.files g).fdFlag = pipeFlag → t.files g = s.files g
  flags : ∀ g, (t.files g).fdFlag = (s.files g).fdFlag
  queues : ∀ q, s.heap q = some .queue → t.heap q = some .queue
  gone : ∀ q, (t.heap q).isSome = true → (s.heap q).isSome = true
  fresh : (∀ q, s.next ≤ q → s.heap q = none) → ∀ q, t.next ≤ q → t.heap q = none

theorem Apart.refl (s : State) : Apart s s :=
  ⟨rfl, rfl, rfl, fun _ _ _ _ => Iff.rfl, fun _ _ _ => rfl, fun _ _ => rfl, fun _ => rfl,
    fun _ => id, fun _ => id, id⟩

theorem Apart.trans (h : Apart s t) (h' : Apart t u) : Apart s u :=
  ⟨h'.live.trans h.live, h'.page.trans h.page, h'.freed.trans h.freed,
    fun p fd g hg => (h'.tables p fd g ((h.flags g).trans hg)).trans (h.tables p fd g hg),
    fun p fd hfd => (h'.std p fd hfd).trans (h.std p fd hfd),
    fun g hg => (h'.files g ((h.flags g).trans hg)).trans (h.files g hg),
    fun g => (h'.flags g).trans (h.flags g), fun q hq => h'.queues q (h.queues q hq),
    fun q hq => h.gone q (h'.gone q hq), fun hf => h'.fresh (h.fresh hf)⟩

theorem Apart.isPipe (h : Apart s t) : IsPipe t g q ↔ IsPipe s g q := by
  constructor
  · intro hg
    have hf := (h.flags g).symm.trans hg.flag
    exact ⟨hf, h.files g hf ▸ hg.inode⟩
  · intro hg
    exact ⟨(h.flags g).trans hg.flag, (h.files g hg.flag).symm ▸ hg.inode⟩

theorem Apart.refs (h : Apart s t) (hg : (s.files g).fdFlag = pipeFlag) : refs t g = refs s g :=
  refs_congr h.live fun p _ fd => h.tables p fd g hg

theorem Counted.apart (h : Counted s) (ha : Apart s t) : Counted t := by
  refine ⟨ha.live ▸ h.nodup, ha.live ▸ h.bound, fun p hp fd hfd => ?_, ha.fresh h.fresh,
    fun g q hg => h.low g q (ha.isPipe.mp hg),
    fun g g' q hg hg' => h.inj g g' q (ha.isPipe.mp hg) (ha.isPipe.mp hg'), fun g q hg => ?_,
    fun g q hg p hp => ?_, fun g q hg => ha.queues q (h.alive g q (ha.isPipe.mp hg)),
    fun g q hg => ?_, fun g hg hv => ?_⟩
  · rw [ha.std p fd hfd]
    exact h.std p (ha.live ▸ hp) fd hfd
  · have hg' := ha.isPipe.mp hg
    rw [ha.files g hg'.flag, ha.refs hg'.flag]
    exact h.count g q hg'
  · have hg' := ha.isPipe.mp hg
    rw [endsFrom_congr fun fd _ => ha.tables p fd g hg'.flag]
    exact h.even g q hg' p (ha.live ▸ hp)
  · obtain ⟨n, hn, hown⟩ := h.page g q (ha.isPipe.mp hg)
    rw [ha.page]
    exact ⟨n, hn, fun r hr => hown r (ha.gone r hr)⟩
  · have hf := (ha.flags g).symm.trans hg
    rw [ha.files g hf] at hv
    rw [ha.refs hf]
    exact h.vacant g hf hv

/-- With no page given back, the pipes keep a descriptor each. -/
theorem law_of_keep (hfreed : t.freed = s.freed)
    (hk : ∀ g q, IsPipe s g q → t.heap q = some .queue ∧ (t.files g).fdInode = some q ∧
      0 < Descr.refs t g) : PipeLaw s t := by
  refine ⟨fun g q hg => ?_, [], by rw [hfreed, List.append_nil], .nil, fun n => ?_⟩
  · obtain ⟨hheap, hino, hpos⟩ := hk g q hg
    rw [hheap, hino]
    exact ⟨iff_of_false nofun hpos.ne', iff_of_false nofun hpos.ne'⟩
  · refine iff_of_false List.not_mem_nil ?_
    rintro ⟨g, q, hg, -, hz⟩
    exact (hk g q hg).2.2.ne' hz

theorem Counted.apart_law (h : Counted s) (ha : Apart s t) : PipeLaw s t := by
  refine law_of_keep ha.freed fun g q hg => ?_
  rw [ha.refs hg.flag, ha.files g hg.flag]
  exact ⟨ha.queues q (h.alive g q hg), hg.inode, (h.count g q hg).2⟩

theorem Apart.setOpens (s : State) (l : List Nat) : Apart s { s with openInodes := l } :=
  ⟨rfl, rfl, rfl, fun _ _ _ _ => Iff.rfl, fun _ _ _ => rfl, fun _ _ => rfl, fun _ => rfl,
    fun _ => id, fun _ => id, id⟩

theorem Apart.setObj {x : Inode} {o : Option Obj} (hx : s.heap q = some (.inode x)) :
    Apart s (s.setObj q o) := by
  have hheap : ∀ r, r ≠ q → (s.setObj q o).heap r = s.heap r := fun r hr =>
    Function.update_of_ne hr ..
  refine ⟨rfl, rfl, rfl, fun _ _ _ _ => Iff.rfl, fun _ _ _ => rfl, fun _ _ => rfl, fun _ => rfl,
    fun r hr => ?_, fun r hr => ?_, fun hf r hr => ?_⟩
  · refine (hheap r ?_).trans hr
    rintro rfl
    rw [hx] at hr
    cases hr
  · by_cases hrq : r = q
    · rw [hrq, hx]
      rfl
    · rwa [hheap r hrq] at hr
  · refine (hheap r ?_).trans (hf r hr)
    rintro rfl
    rw [hf r hr] at hx
    cases hx

theorem Apart.setFile {f : File} (hg : (s.files g).fdFlag ≠ pipeFlag)
    (hf : f.fdFlag = (s.files g).fdFlag) : Apart s (s.setFile g f) := by
  refine ⟨rfl, rfl, rfl, fun _ _ _ _ => Iff.rfl, fun _ _ _ => rfl, fun g' hg' => ?_, fun g' => ?_,
    fun _ => id, fun _ => id, id⟩
  · refine Function.update_of_ne ?_ ..
    rintro rfl
    exact hg hg'
  · by_cases hgg : g' = g
    · subst hgg
      exact (congrArg File.fdFlag (Function.update_self ..)).trans hf
    · exact congrArg File.fdFlag (Function.update_of_ne hgg ..)

theorem Apart.setEntry {o : Option Nat} (hfd : 3 ≤ fd)
    (ho : ∀ g, (s.files g).fdFlag = pipeFlag → (o = some g ↔ s.tables p fd = some g)) :
    Apart s (s.setEntry p fd o) := by
  have htab : ∀ p' fd', (s.setEntry p fd o).tables p' fd' =
      if p' = p ∧ fd' = fd then o else s.tables p' fd' := by
    intro p' fd'
    by_cases hp : p' = p
    · subst hp
      simp [State.setEntry, Function.update_apply]
    · simp [State.setEntry, hp]
  refine ⟨rfl, rfl, rfl, fun p' fd' g hg => ?_, fun p' fd' hlt => ?_, fun _ _ => rfl, fun _ => rfl,
    fun _ => id, fun _ => id, id⟩
  · rw [htab]
    split
    · rename_i he
      rw [he.1, he.2]
      exact ho g hg
    · exact Iff.rfl
  · rw [htab, if_neg]
    rintro ⟨-, rfl⟩
    omega

/-- Closing an inode. -/
theorem apart_inodeClose : wp Any (inodeClose q) (fun _ t => Apart s t ∧ t.files = s.files ∧
    t.tables = s.tables) s := by
  unfold inodeClose
  simp only [wp_bind, wp_inodeAt, wp_ite, wp_get, wp_check, wp_modify, wp_freeObj, wp_setInode,
    implies_true, and_true]
  refine fun x hx => ⟨fun _ _ => ⟨?_, rfl, rfl⟩, fun _ => ⟨.setObj hx, rfl, rfl⟩⟩
  exact (Apart.setOpens s (s.openInodes.erase q)).trans (.setObj hx)

theorem apart_fileClose (hg : (s.files g).fdFlag ≠ pipeFlag) :
    wp Any (fileClose g) (fun _ t => Apart s t ∧ t.tables = s.tables) s := by
  simp only [fileClose, wp_bind, wp_fileAt, wp_need, wp_inodeAt, wp_setInode, implies_true,
    and_true]
  intro q hq x hx
  have h1 : Apart s (s.setObj q (some (.inode { x with iLock := false }))) := .setObj hx
  refine wp_mono apart_inodeClose ?_
  rintro - t ⟨h2, hf, ht⟩
  refine ⟨(h1.trans h2).trans (.setFile ?_ ?_), ht⟩
  · rwa [hf]
  · rw [hf]
    rfl

/-- `sys_close` of something else than a pipe. -/
theorem apart_sysClose {fd : Int} (hp : ∀ g, 3 ≤ fd → s.tables p fd.toNat = some g →
    (s.files g).fdFlag = pipeFlag → Fs.u32Sub (s.files g).fdPos 1 ≠ 0) :
    wp Any (sysClose p fd) (fun _ t => Apart s t ∧
      ∀ p' fd', p' ≠ p ∨ fd' ≠ fd.toNat → t.tables p' fd' = s.tables p' fd') s := by
  simp only [sysClose, fdLocal2Global, wp_ite, wp_bind, wp_get, wp_check, wp_need, wp_pure, wp_fileAt,
    wp_inodeAt, implies_true, and_true]
  refine ⟨fun _ => .refl s, fun hfd _ g hg _ => ⟨fun hflag => ?_, fun hflag => ?_⟩⟩
  · simp only [closePipe, wp_bind, wp_fileAt, wp_ite, wp_pure, implies_true, and_true]
    exact ⟨fun hz => absurd hz (hp g (by omega) hg hflag), fun _ => .refl s⟩
  · intro q hq x hx
    refine wp_mono (apart_fileClose hflag) ?_
    rintro - t ⟨ht, htab⟩
    simp only [wp_setEntry]
    refine ⟨fun _ => ⟨ht, fun _ _ _ => by rw [htab]⟩, fun _ => ⟨ht.trans (.setEntry ?_ ?_), ?_⟩⟩
    · omega
    · intro g' hg'
      rw [htab, hg]
      refine iff_of_false (by simp) ?_
      rintro ⟨⟩
      exact hflag ((ht.flags g).symm.trans hg')
    · intro p' fd' hne
      rw [← htab]
      unfold State.setEntry
      by_cases hpp : p' = p
      · subst hpp
        simp only [Function.update_self]
        rw [Function.update_of_ne (hne.resolve_left fun h => h rfl)]
      · simp only [Function.update_of_ne hpp]

/-- `i_size` of a queue is negative: no position is in the file. -/
theorem apart_sysLseek {fd : Int} {offset size : BitVec 32} {w : Nat} (h : Counted s)
    (hs : ∀ g q, s.tables p fd.toNat = some g → (s.files g).fdInode = some q →
      s.heap q = some .queue → 0xc0100000 ≤ size.toNat) :
    wp Any (sysLseek p fd offset w size) (fun _ t => Apart s t) s := by
  simp only [sysLseek, fdLocal2Global, wp_ite, wp_bind, wp_get, wp_check, wp_need, wp_pure, wp_fileAt,
    wp_setFile, implies_true, and_true]
  refine ⟨fun _ => .refl s, fun _ _ _ g hg _ q hq => ⟨fun _ => .refl s, fun hpos => ?_⟩⟩
  refine .setFile (fun hflag => hpos ?_) rfl
  have hsize := hs g q hg hq (h.alive g q ⟨hflag, hq⟩)
  have hneg : size.toInt < 0 := by
    rw [BitVec.toInt_eq_toNat_cond]
    split <;> omega
  by_contra hno
  rw [not_or, not_lt, not_lt] at hno
  exact absurd (hno.1.trans hno.2) (not_le.mpr hneg)

end Frog.Descr
