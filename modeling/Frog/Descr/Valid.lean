import Frog.Descr.Calls

/-!
# Valid descriptors

What a descriptor denotes, when it still denotes what it did when its process obtained it, and
under which condition on a call no process loses a descriptor.
-/

namespace Frog.Descr

set_option autoImplicit false
open Prog
open Fs (File FileType Stop maxFileOpen maxFilesOpenPerProc pipeFlag hasFlag oCreat)

/-- The descriptor `fd` of the live process `p` refers to the slot `g`. -/
structure Refers (s : State) (p fd g : Nat) : Prop where
  live : p ∈ s.live
  lo : 3 ≤ fd
  hi : fd < maxFilesOpenPerProc
  entry : s.tables p fd = some g

/-- What makes an inode the one it is. -/
structure Ident where
  iNum : Nat
  iType : FileType
  iDev : Nat

def Inode.ident (x : Inode) : Ident := ⟨x.iNum, x.iType, x.iDev⟩

def Obj.ident : Obj → Option Ident
  | .inode x => some x.ident
  | .queue => none

/-- An object and, for a file or a device, its inode. -/
structure Ref where
  addr : Nat
  ident : Option Ident

def State.identAt (s : State) (q : Nat) : Option (Option Ident) := (s.heap q).map Obj.ident

/-- What the slot `g` denotes, if it is occupied and its object exists. -/
def State.denotes (s : State) (g : Nat) : Option Ref :=
  (s.files g).fdInode.bind fun q => (s.identAt q).map fun n => ⟨q, n⟩

/-- What each descriptor denoted when its process obtained it. -/
abbrev History := Nat → Nat → Option Ref

open Classical in
/-- The history after a call that leads from `s` to `t`: new entries are recorded. -/
noncomputable def History.after (h : History) (s t : State) : History := fun p fd =>
  if p ∈ s.live ∧ t.tables p fd = s.tables p fd then h p fd else (t.tables p fd).bind t.denotes

def Watched (x : State × History) (e : Event) (y : State × History) : Prop :=
  Step x.1 e y.1 ∧ y.2 = x.2.after x.1 y.1

def Valid (s : State) (h : History) : Prop :=
  ∀ p fd g, Refers s p fd g →
    g < maxFileOpen ∧ (s.denotes g).isSome = true ∧ h p fd = s.denotes g

/-- A slot is freed exactly with the last descriptor that refers to it. -/
def Frees (s t : State) : Prop :=
  ∀ g, ((s.files g).fdInode.isSome = true ∧ (t.files g).fdInode = none) ↔
    (∃ p fd, Refers s p fd g) ∧ ∀ p fd, ¬ Refers t p fd g

def Closed (e : Event) (t : State) : Prop :=
  ∀ p fd, e = .sysClose p fd → 3 ≤ fd → t.tables p fd.toNat = none

/-! ## The condition -/

/-- A descriptor of a live process refers to the object at `q`. -/
def Used (s : State) (q : Nat) : Prop :=
  ∃ p fd g, Refers s p fd g ∧ (s.files g).fdInode = some q

/-- Another process than `p` has a descriptor for the slot `g`. -/
def Shared (s : State) (p g : Nat) : Prop := ∃ p' fd, p' ≠ p ∧ Refers s p' fd g

/-- Another process than `p` has a descriptor for the object at `q`. -/
def UsedBeside (s : State) (p q : Nat) : Prop :=
  ∃ p' fd g, p' ≠ p ∧ Refers s p' fd g ∧ (s.files g).fdInode = some q

/-- The number of times an inode can be closed before it is freed. -/
def Inode.slack (x : Inode) : Nat := dec16 x.iCount

/-- The directories that `sys_open` closes. -/
def closedDirs (w : Lookup) (flags : Nat) : List Nat :=
  match w.target with
  | .found _ => if hasFlag flags oCreat then w.dirs else w.dirs.dropLast
  | _ => w.dirs

/-- The descriptors above the standard ones. -/
def userFds : List Nat := List.range' 3 29

def ownEnds (s : State) (p g : Nat) : Nat := userFds.countP fun fd => s.tables p fd = some g

/-- The slot of `fd` is no pipe and holds the object at `q`. -/
def closesAt (s : State) (p q fd : Nat) : Bool :=
  match s.tables p fd with
  | none => false
  | some g => (s.files g).fdFlag ≠ pipeFlag && (s.files g).fdInode == some q

def ownCloses (s : State) (p q : Nat) : Nat := userFds.countP (closesAt s p q)

/-- The process `p` may exit. -/
structure MayExit (s : State) (p : Nat) : Prop where
  /-- The slots of its standard descriptors hold no pipe. -/
  std : ∀ fd < 3, (s.files fd).fdFlag = pipeFlag → (s.files fd).fdInode = none
  /-- The open count of a pipe covers its descriptors, and it is greater exactly when others have
  descriptors for the pipe. -/
  pipes : ∀ fd g, Refers s p fd g → (s.files g).fdFlag = pipeFlag →
    ownEnds s p g ≤ (s.files g).fdPos ∧ (ownEnds s p g < (s.files g).fdPos ↔ Shared s p g)
  /-- Its other slots are its own. -/
  slots : ∀ fd g, Refers s p fd g → (s.files g).fdFlag ≠ pipeFlag → ¬ Shared s p g
  /-- No inode that others use is closed for the last time. -/
  inodes : ∀ q x, UsedBeside s p q → s.heap q = some (.inode x) → ownCloses s p q ≤ x.slack
  /-- Where it gives up the last descriptor of a pipe, the page of the slot with the descriptor's
  index holds nothing that others use. -/
  pages : ∀ fd g, Refers s p fd g → (s.files g).fdFlag = pipeFlag → ¬ Shared s p g →
    (∀ fd', fd < fd' → s.tables p fd' ≠ some g) →
      ∀ q a, UsedBeside s p q → (s.files fd).fdInode = some a → s.page q ≠ s.page a

/-- The process `p` may close `fd`: it is not a pipe or a character device, no other descriptor refers
to its slot, and if its inode is closed for the last time, none to its inode. -/
def MayClose (s : State) (p fd : Nat) : Prop :=
  ∀ g, Refers s p fd g →
    (s.files g).fdFlag ≠ pipeFlag ∧ (∀ p' fd', Refers s p' fd' g → p' = p ∧ fd' = fd) ∧
    ∀ q x, (s.files g).fdInode = some q → s.heap q = some (.inode x) →
      x.iType ≠ .char ∧ (x.iCount = 1 → ∀ p' fd' g', Refers s p' fd' g' →
        (s.files g').fdInode = some q → p' = p ∧ fd' = fd)

def MayDo (s : State) : Event → Prop
  | .sysOpen _ w flags _ => ∀ q x, Used s q → s.heap q = some (.inode x) → q ∈ s.openInodes →
      (closedDirs w flags).count x.iNum ≤ x.slack
  | .sysPipe _ _ | .sysFork _ _ => True
  | .sysClose p fd => 3 ≤ fd → MayClose s p fd.toNat
  | .sysExit p => MayExit s p

/-- Processes that have not opened anything. -/
structure Booted (s : State) : Prop where
  nodup : s.live.Nodup
  std : ∀ p ∈ s.live, ∀ fd < 3, s.tables p fd = some fd
  none_open : ∀ p fd g, ¬ Refers s p fd g
  fresh : ∀ q, s.next ≤ q → s.heap q = none
  pos : ∀ g, (s.files g).fdPos < 2 ^ 32

/-! ## The invariant -/

structure Inv (s : State) : Prop where
  nodup : s.live.Nodup
  std : ∀ p ∈ s.live, ∀ fd < 3, s.tables p fd = some fd
  sound : ∀ p fd g, Refers s p fd g → g < maxFileOpen ∧ (s.denotes g).isSome = true
  twice : ∀ p fd fd' g, Refers s p fd g → Refers s p fd' g → fd ≠ fd' →
    (s.files g).fdFlag = pipeFlag
  fresh : ∀ q, s.next ≤ q → s.heap q = none
  pos : ∀ g, (s.files g).fdPos < 2 ^ 32

theorem Booted.inv {s : State} (h : Booted s) : Inv s :=
  ⟨h.nodup, h.std, fun p fd g hr => (h.none_open p fd g hr).elim,
    fun p fd _ g hr _ _ => (h.none_open p fd g hr).elim, h.fresh, h.pos⟩

/-- Between two states, what is needed of a call. -/
structure Keeps (s : State) (e : Event) (t : State) : Prop where
  inv : Inv t
  /-- Old entries denote what they did. -/
  same : ∀ p fd g, Refers t p fd g → p ∈ s.live → t.tables p fd = s.tables p fd →
    t.denotes g = s.denotes g
  frees : Frees s t
  closed : Closed e t

variable {s t : State} {p g fd q : Nat}

theorem State.denotes_isSome :
    (s.denotes g).isSome = true ↔ ∃ q, (s.files g).fdInode = some q ∧ (s.heap q).isSome = true := by
  unfold State.denotes State.identAt
  cases (s.files g).fdInode with
  | none => simp
  | some q => simp

/-- The slot and the number of the object decide what a slot denotes. -/
theorem State.denotes_congr (hf : (t.files g).fdInode = (s.files g).fdInode)
    (hn : ∀ q, (s.files g).fdInode = some q → t.identAt q = s.identAt q) :
    t.denotes g = s.denotes g := by
  unfold State.denotes
  rw [hf]
  cases h : (s.files g).fdInode with
  | none => rfl
  | some q => simp [hn q h]

theorem Inv.occupied (h : Inv s) (hr : Refers s p fd g) :
    ∃ q, (s.files g).fdInode = some q ∧ (s.heap q).isSome = true :=
  State.denotes_isSome.mp (h.sound p fd g hr).2

theorem UsedBeside.used (h : UsedBeside s p q) : Used s q := by
  obtain ⟨p', fd, g, -, hr, hq⟩ := h
  exact ⟨p', fd, g, hr, hq⟩

end Frog.Descr
