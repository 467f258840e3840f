import Frog.Fs.Syscalls
import Frog.Lib.Effect

/-!
# The lock of the file table

The calls of `core/fs/file.c`, `core/device/pc_kbd.c`, `core/video/lfbvideo.c` and
`core/vfs/packagefs.c` that take a slot of `g_file_table` under its lock. Those that create a file
have one frame, and the lock is held where this frame returns without a slot.
-/

namespace Frog.Fs

set_option autoImplicit false
open Bytes Prog

/-! ## Creating files -/

/-- What `file_create`, `kbd_create` and `packagefs_create` have in common: `x` is the new inode and
`tail` what is done once there is a slot, with the lock still held. -/
def createWith (x : Nat → Inode) (t : FileType) (name : Name)
    (tail : Nat → Nat → DirEntry → Nat → M (Option Nat)) : M (Option Nat) := do
  if !(← sysMalloc 1024) then pure none
  else
    match ← inodeBitmapAlloc with
    | none => pure none
    | some inodeNr =>
      if !(← sysMalloc 100) then
        setBit .inodeBitmap inodeNr false
        pure none
      else
        let p ← newInodeObject (x inodeNr)
        let entry ← newDirEntry name inodeNr t
        lockFetch
        match ← occupyFileTableSlot with
        | none =>
          freeInode p
          setBit .inodeBitmap inodeNr false
          pure none
        | some g => tail p inodeNr entry g

/-- The entry and both inodes are written; undone when the directory takes no entry. -/
def publishFile (parent flag : Nat) (p inodeNr : Nat) (entry : DirEntry) (g : Nat) :
    M (Option Nat) := do
  setFile g { fdPos := 0, fdFlag := flag, fdInode := some p }
  lockRelease
  if ← flushDirEntry parent entry then
    let q ← dirInode parent
    let y ← inodeAt q
    flushInode y
    let x ← inodeAt p
    flushInode x
    flushBitmap .inodeBitmap inodeNr
    listAddOpen p
    installThreadFd (some g)
  else
    setFile g clearedFile
    freeInode p
    setBit .inodeBitmap inodeNr false
    pure none

/-- A special file keeps an entry of its name that is there already. -/
def publishSpecial (parent : Nat) (name : Name) (p inodeNr : Nat) (entry : DirEntry) (g : Nat) :
    M (Option Nat) := do
  let f ← fileAt g
  setFile g { f with fdPos := 0, fdInode := some p }
  lockRelease
  match ← searchDirEntry parent name with
  | some _ =>
    listAddOpen p
    pure (some g)
  | none =>
    if ← flushDirEntry parent entry then
      listAddOpen p
      pure (some g)
    else
      setFile g clearedFile
      freeInode p
      setBit .inodeBitmap inodeNr false
      pure none

theorem fileCreate_eq (parent : Nat) (name : Name) (flag : Nat) :
    fileCreate parent name flag = createWith regularInode .regular name (publishFile parent flag) :=
  rfl

theorem packagefsCreate_eq (parent : Nat) (name : Name) (target : Nat) :
    packagefsCreate parent name target =
      createWith (pkgInode · target) .fifo name (publishSpecial parent name) := rfl

def dnoPckbd : Nat := 3

def kbdInode (inodeNr target : Nat) : Inode :=
  { (newInode inodeNr zeroInode).setZone 0 target with
    iMode := FileType.char.mode, iCount := 1, iDev := dnoPckbd }

/-- `kbd_create`. -/
def kbdCreate (parent : Nat) (name : Name) (target : Nat) : M (Option Nat) :=
  createWith (kbdInode · target) .char name (publishSpecial parent name)

/-- `open_pkg`. -/
def openPkg (parent : Nat) (name : Name) (inodeNr flags : Nat) : M (Option Nat) :=
  if hasFlag flags oCreat then openPkgServer parent name else openPkgClient inodeNr flags

/-! ## What leaves the lock alone -/

abbrev SameLock : State → State → Prop := SamePart State.gFtLock

def State.lockedTable (s : State) : Nat × (Nat → File) := (s.gFtLock, s.fileTable)

abbrev SameTable : State → State → Prop := SamePart State.lockedTable

/-- What a mount sets, and nothing else. -/
def State.mounted (s : State) : SuperBlock × Nat := (s.sb, s.inodeBitmap.mapBytesLength)

def State.mountedLock (s : State) : (SuperBlock × Nat) × Nat := (s.mounted, s.gFtLock)

def State.mountedTable (s : State) : (SuperBlock × Nat) × Nat × (Nat → File) :=
  (s.mounted, s.lockedTable)

abbrev SameMount : State → State → Prop := SamePart State.mountedLock

abbrev SameSlots : State → State → Prop := SamePart State.mountedTable

theorem SameMount.lock {s t : State} (h : SameMount s t) : SameLock s t := by
  have heq : t.mountedLock = s.mountedLock := h
  exact congrArg Prod.snd heq

theorem locks {α : Type} {m : M α} (h : Within SameMount m) : Within SameLock m :=
  h.mono fun _ _ hst => hst.lock

@[grind ←] theorem mounts {α : Type} {m : M α} (h : Within SameSlots m) : Within SameMount m :=
  h.mono fun s t hst => by
    have heq : t.mountedTable = s.mountedTable := hst
    show t.mountedLock = s.mountedLock
    exact congrArg (fun v => (v.1, v.2.1)) heq

section Frame

@[grind ←] theorem sysMalloc_table (n : Nat) : Within SameSlots (sysMalloc n) := by
  intro s a t h
  unfold sysMalloc at h
  split at h <;> cases h <;> rfl

@[grind ←] theorem mustMalloc_table (n : Nat) : Within SameSlots (mustMalloc n) := by
  unfold mustMalloc
  grind

@[grind ←] theorem readJunk_table : Within SameSlots readJunk := by
  intro s a t h
  cases h
  rfl

@[grind ←] theorem inodeAt_table (p : Nat) : Within SameSlots (inodeAt p) := by
  unfold inodeAt
  grind

@[grind ←] theorem setInode_table (p : Nat) (x : Inode) : Within SameSlots (setInode p x) :=
  within_modify fun _ => rfl

@[grind ←] theorem freeInode_table (p : Nat) : Within SameSlots (freeInode p) :=
  within_modify fun _ => rfl

@[grind ←] theorem newInodeObject_table (x : Inode) : Within SameSlots (newInodeObject x) := by
  intro s a t h
  cases h
  rfl

@[grind ←] theorem dirInode_table (d : Nat) : Within SameSlots (dirInode d) := by
  unfold dirInode dirAt
  grind

@[grind ←] theorem fileAt_table (g : Nat) : Within SameSlots (fileAt g) := by
  unfold fileAt
  grind

@[grind ←] theorem setFile_lock (g : Nat) (f : File) : Within SameMount (setFile g f) :=
  within_modify fun _ => rfl

@[grind ←] theorem ideRead_table (lba cnt : Nat) : Within SameSlots (ideRead lba cnt) := by
  unfold ideRead
  grind

@[grind ←] theorem ideWrite_table (lba : Nat) (buf : Store) (cnt : Nat) :
    Within SameSlots (ideWrite lba buf cnt) :=
  (within_check _ _).bind fun _ => within_modify fun _ => rfl

@[grind ←] theorem setBit_table (m : BitmapType) (pos : Nat) (v : Bool) :
    Within SameSlots (setBit m pos v) := by
  unfold setBit
  cases m <;> exact within_get.bind fun _ => (within_check _ _).bind fun _ => within_modify fun _ => rfl

@[grind ←] theorem flushBitmap_table (m : BitmapType) (i : Nat) :
    Within SameSlots (flushBitmap m i) := by
  unfold flushBitmap
  cases m <;> exact within_get.bind fun _ => ideWrite_table _ _ _

@[grind ←] theorem zoneBitmapAlloc_table : Within SameSlots zoneBitmapAlloc := by
  refine within_get.bind fun s => ?_
  split <;> grind

@[grind ←] theorem takeFreeZone_table : Within SameSlots takeFreeZone := by
  refine zoneBitmapAlloc_table.bind fun lba => ?_
  split <;> grind

@[grind ←] theorem flushInode_table (x : Inode) : Within SameSlots (flushInode x) := by
  unfold flushInode localeInode
  grind

@[grind ←] theorem listAddOpen_table (p : Nat) : Within SameSlots (listAddOpen p) :=
  within_modify fun _ => rfl

theorem findOpenInode_table (nr : Nat) (ps : List Nat) : Within SameSlots (findOpenInode nr ps) := by
  induction ps with
  | nil => exact within_pure none
  | cons p ps ih =>
    unfold findOpenInode
    grind

@[grind ←] theorem inodeOpen_table (nr : Nat) : Within SameSlots (inodeOpen nr) := by
  unfold inodeOpen localeInode
  refine within_get.bind fun s => (findOpenInode_table nr s.openInodes).bind fun r => ?_
  split <;> grind

@[grind ←] theorem dirOpen_table (nr : Nat) : Within SameSlots (dirOpen nr) := by
  refine (mustMalloc_table _).bind fun _ => (inodeOpen_table nr).bind fun p => ?_
  intro s d t h
  cases h
  rfl

@[grind ←] theorem inodeClose_table (p : Nat) : Within SameSlots (inodeClose p) := by
  refine (inodeAt_table p).bind fun x => within_ite (fun _ => ?_) fun _ => setInode_table _ _
  refine within_get.bind fun s => (within_check _ _).bind fun _ => ?_
  exact Within.bind (within_modify fun _ => rfl) fun _ => freeInode_table p

@[grind ←] theorem dirClose_table (d : Nat) : Within SameSlots (dirClose d) :=
  within_ite (fun _ => within_pure ()) fun _ => (dirInode_table d).bind fun p =>
    (inodeClose_table p).bind fun _ => within_modify fun _ => rfl

@[grind ←] theorem installThreadFd_table (g : Option Nat) : Within SameSlots (installThreadFd g) := by
  unfold installThreadFd
  refine within_get.bind fun s => ?_
  split
  · exact within_pure none
  · exact Within.bind (R := SameSlots) (within_modify fun _ => rfl) fun _ => within_pure _

@[grind ←] theorem growSize_table (p : Nat) : Within SameSlots (growSize p) := by
  unfold growSize
  grind

@[grind ←] theorem takeZone_table : Within SameSlots takeZone := by
  unfold takeZone
  grind

@[grind ←] theorem flushIndirect_table (p : Nat) (e : DirEntry) (zones : Nat → Nat) (i lba : Nat) :
    Within SameSlots (flushIndirect p e zones i lba) := by
  refine (inodeAt_table p).bind fun x => (setInode_table _ _).bind fun _ =>
    zoneBitmapAlloc_table.bind fun r => (within_need _ _).bind fun second => within_get.bind fun s => ?_
  grind

theorem flushZones_table (p : Nat) (e : DirEntry) (zones : Nat → Nat) (n i : Nat) :
    Within SameSlots (flushZones p e zones n i) := by
  induction n generalizing i with
  | zero => exact within_pure false
  | succ n ih =>
    unfold flushZones
    refine within_ite (fun _ => ?_) fun _ => (ideRead_table _ _).bind fun buf => ?_
    · grind
    · split <;> grind

@[grind ←] theorem flushDirEntry_table (d : Nat) (e : DirEntry) :
    Within SameSlots (flushDirEntry d e) := by
  unfold flushDirEntry readTable
  grind [flushZones_table]

theorem searchPrefixZones_table (name : Name) (zones : Nat → Nat) (n i : Nat) :
    Within SameSlots (searchPrefixZones name zones n i) := by
  induction n generalizing i with
  | zero => exact within_pure none
  | succ n ih =>
    unfold searchPrefixZones
    refine (ideRead_table _ _).bind fun buf => ?_
    split <;> grind

@[grind ←] theorem searchDirEntry_table (d : Nat) (name : Name) :
    Within SameSlots (searchDirEntry d name) := by
  unfold searchDirEntry
  grind [searchPrefixZones_table]

end Frame

/-! ## Returning with the lock -/

def FreeSlot (s : State) : Prop := ∃ g, g < maxFileOpen ∧ (s.fileTable g).fdInode = none

/-- There is memory for the buffer and for the inode, and a number for it. -/
def ReachesSlot (s : State) : Prop :=
  s.env.malloc 0 = true ∧ (∃ i, s.inodeBitmap.findBlock 1 = some i) ∧ s.env.malloc 1 = true

/-- The calls that fetch the lock of the file table. -/
inductive Opening where
  | fileCreate (parent : Nat) (name : Name) (flag : Nat)
  | fileOpen (inodeNr flags : Nat)
  | openLfb (inodeNr flags : Nat)
  | kbdCreate (parent : Nat) (name : Name) (target : Nat)
  | packagefsCreate (parent : Nat) (name : Name) (target : Nat)
  | openPkg (parent : Nat) (name : Name) (inodeNr flags : Nat)

def Opening.run : Opening → M (Option Nat)
  | .fileCreate parent name flag => Fs.fileCreate parent name flag
  | .fileOpen inodeNr flags => Fs.fileOpen inodeNr flags
  | .openLfb inodeNr flags => Fs.openLfb inodeNr flags
  | .kbdCreate parent name target => Fs.kbdCreate parent name target
  | .packagefsCreate parent name target => Fs.packagefsCreate parent name target
  | .openPkg parent name inodeNr flags => Fs.openPkg parent name inodeNr flags

/-- If the call comes to look for a slot there is one. A new server takes two blocks of memory
before. -/
def Opening.FindsSlot (s : State) : Opening → Prop
  | .fileCreate _ _ _ | .kbdCreate _ _ _ | .packagefsCreate _ _ _ => ReachesSlot s → FreeSlot s
  | .fileOpen _ _ | .openLfb _ _ => FreeSlot s
  | .openPkg _ _ _ flags =>
    if hasFlag flags oCreat then ReachesSlot s.nextMalloc.nextMalloc → FreeSlot s else FreeSlot s

/-- The lock was released once. -/
def Released (s t : State) : Prop := t.gFtLock = s.gFtLock - 1

variable {s t : State} {r : Option Nat}

theorem occupyFileTableSlot_ok : ∃ r, occupyFileTableSlot s = .ok (r, s) ∧
    (r.isSome = true ↔ FreeSlot s) := by
  refine ⟨_, rfl, ?_⟩
  rw [List.find?_isSome]
  unfold FreeSlot
  simp only [List.mem_range, Option.isNone_iff_eq_none]

/-- What follows the fetch gives the lock back exactly when there is a slot. -/
theorem underLock {lost : M (Option Nat)} {tail : Nat → M (Option Nat)} (hl : Within SameLock lost)
    (ht : ∀ g, Within Released (tail g))
    (hrun : (do
      lockFetch
      match ← occupyFileTableSlot with
      | none => lost
      | some g => tail g) s = .ok (r, t)) : t.gFtLock = s.gFtLock ↔ FreeSlot s := by
  obtain ⟨u, s₁, hf, hrun⟩ := bind_eq_ok.mp hrun
  cases hf
  obtain ⟨r', ho, hslot⟩ :=
    occupyFileTableSlot_ok (s := { s with gFtLock := s.gFtLock + 1 })
  rw [bind_ok ho] at hrun
  have hfree : FreeSlot { s with gFtLock := s.gFtLock + 1 } ↔ FreeSlot s := Iff.rfl
  rw [← hfree, ← hslot]
  cases r' with
  | none =>
    have hkept : t.gFtLock = s.gFtLock + 1 := hl _ _ _ hrun
    simp only [hkept, Option.isSome_none, Bool.false_eq_true, iff_false]
    omega
  | some g =>
    have hback : t.gFtLock = s.gFtLock + 1 - 1 := ht g _ _ _ hrun
    simp only [hback, Nat.add_sub_cancel, Option.isSome_some]

theorem sysMalloc_ok {n : Nat} (hn : n ≠ 0) : sysMalloc n s = .ok (s.env.malloc 0, s.nextMalloc) :=
  if_neg hn

theorem inodeBitmapAlloc_none (h : s.inodeBitmap.findBlock 1 = none) :
    inodeBitmapAlloc s = .ok (none, s) := by
  unfold inodeBitmapAlloc
  rw [bind_ok (get_apply _), h]
  rfl

theorem inodeBitmapAlloc_some {i : Nat} (h : s.inodeBitmap.findBlock 1 = some i) :
    inodeBitmapAlloc s = .ok (some i, s.setInodeMap (s.inodeBitmap.setValue i true)) := by
  have hb : setBit .inodeBitmap i true s =
      .ok ((), s.setInodeMap (s.inodeBitmap.setValue i true)) :=
    bind_ok (a := ()) (check_eq_ok.mpr ⟨(Bitmap.findBlock_one h).1, rfl⟩)
  unfold inodeBitmapAlloc
  rw [bind_ok (get_apply _), h]
  exact bind_ok hb

theorem createWith_lock {x : Nat → Inode} {ft : FileType} {name : Name}
    {tail : Nat → Nat → DirEntry → Nat → M (Option Nat)}
    (ht : ∀ p i e g, Within Released (tail p i e g))
    (hrun : createWith x ft name tail s = .ok (r, t)) :
    t.gFtLock = s.gFtLock ↔ (ReachesSlot s → FreeSlot s) := by
  -- where the call returns before the fetch, the lock is as it was
  have early : ¬ ReachesSlot s → t.gFtLock = s.gFtLock →
      (t.gFtLock = s.gFtLock ↔ (ReachesSlot s → FreeSlot s)) :=
    fun h h' => iff_of_true h' fun hr => (h hr).elim
  unfold createWith at hrun
  rw [bind_ok (sysMalloc_ok (by decide))] at hrun
  by_cases h0 : s.env.malloc 0 = true
  · rw [h0, if_neg (by decide)] at hrun
    cases hf : s.inodeBitmap.findBlock 1 with
    | none =>
      rw [bind_ok (inodeBitmapAlloc_none (s := s.nextMalloc) hf)] at hrun
      cases hrun
      refine early (fun h => ?_) rfl
      obtain ⟨i, hi⟩ := h.2.1
      rw [hf] at hi
      cases hi
    | some i =>
      rw [bind_ok (inodeBitmapAlloc_some (s := s.nextMalloc) hf)] at hrun
      simp only at hrun
      rw [bind_ok (sysMalloc_ok (by decide))] at hrun
      by_cases h1 : s.env.malloc 1 = true
      · rw [show (s.nextMalloc.setInodeMap _).env.malloc 0 = true from h1, if_neg (by decide)] at hrun
        obtain ⟨p, s₁, hp, hrun⟩ := bind_eq_ok.mp hrun
        cases hp
        obtain ⟨e, s₂, he, hrun⟩ := bind_eq_ok.mp hrun
        obtain ⟨u, s₃, hc, he⟩ := bind_eq_ok.mp he
        cases (check_eq_ok.mp hc).2
        cases he
        have h := underLock (locks (mounts ((freeInode_table _).bind fun _ =>
          (setBit_table _ _ _).bind fun _ => within_pure none))) (fun g => ht _ _ _ g) hrun
        refine Iff.trans h ⟨fun hs _ => hs, fun hs => hs ⟨h0, ⟨i, hf⟩, h1⟩⟩
      · rw [show (s.nextMalloc.setInodeMap _).env.malloc 0 = false from Bool.eq_false_iff.mpr h1,
          if_pos (by decide)] at hrun
        have h : SameMount _ t :=
          mounts ((setBit_table _ _ _).bind fun _ => within_pure none) _ _ _ hrun
        exact early (fun h => h1 h.2.2) h.lock
  · rw [Bool.eq_false_iff.mpr h0, if_pos (by decide)] at hrun
    cases hrun
    exact early (fun h => h0 h.1) rfl

/-! ## Every call -/

/-- The lock is released between two parts that leave it alone. -/
theorem released {α β : Type} {m : M α} {m' : M β} (h : Within SameMount m) (h' : Within SameMount m') :
    Within Released (do
      let _ ← m
      lockRelease
      m') := by
  refine (locks h).comp (Q := Released) (fun _ => ?_) fun a b c hab hbc => ?_
  · exact Within.comp (P := Released) (Q := SameLock) (within_modify fun _ => rfl) (fun _ => locks h')
      fun a b c hab hbc => hbc.trans hab
  · exact hbc.trans (congrArg (· - 1) hab)

/-- The roll back of a call that has a slot. -/
theorem rollBack_lock (g p i : Nat) : Within SameMount (do
    setFile g clearedFile
    freeInode p
    setBit .inodeBitmap i false
    pure (none : Option Nat)) :=
  (setFile_lock _ _).bind fun _ => mounts ((freeInode_table _).bind fun _ =>
    (setBit_table _ _ _).bind fun _ => within_pure none)

theorem publishFile_lock (parent flag p i : Nat) (e : DirEntry) (g : Nat) :
    Within Released (publishFile parent flag p i e g) := by
  refine released (setFile_lock _ _) ((mounts (flushDirEntry_table _ _)).bind fun ok =>
    within_ite (fun _ => ?_) fun _ => rollBack_lock g p i)
  refine mounts ((dirInode_table _).bind fun q => (inodeAt_table _).bind fun y => ?_)
  refine (flushInode_table _).bind fun _ => (inodeAt_table _).bind fun x => ?_
  refine (flushInode_table _).bind fun _ => (flushBitmap_table _ _).bind fun _ => ?_
  exact (listAddOpen_table _).bind fun _ => installThreadFd_table _

theorem publishSpecial_lock (parent : Nat) (name : Name) (p i : Nat) (e : DirEntry) (g : Nat) :
    Within Released (publishSpecial parent name p i e g) := by
  refine (locks (mounts (fileAt_table g))).comp (Q := Released) (fun f => released (setFile_lock _ _) ?_)
    fun a b c hab hbc => hbc.trans (congrArg (· - 1) hab)
  refine (mounts (searchDirEntry_table _ _)).bind fun found => ?_
  cases found with
  | some e' => exact (mounts (listAddOpen_table _)).bind fun _ => within_pure _
  | none =>
    refine (mounts (flushDirEntry_table _ _)).bind fun ok => within_ite (fun _ => ?_) fun _ =>
      rollBack_lock g p i
    exact (mounts (listAddOpen_table _)).bind fun _ => within_pure _

/-- `file_open` after the fetch. -/
theorem opened_lock (inodeNr flags g : Nat) {tail : Nat → M (Option Nat)}
    (ht : ∀ p, Within SameMount (tail p)) : Within Released (do
      let p ← inodeOpen inodeNr
      setFile g { fdPos := 0, fdFlag := flags, fdInode := some p }
      lockRelease
      tail p) :=
  (locks (mounts (inodeOpen_table inodeNr))).comp (Q := Released) (fun p => released (setFile_lock _ _) (ht p))
    fun _ _ _ hab hbc => hbc.trans (congrArg (· - 1) hab)

theorem fileOpen_lock {inodeNr flags : Nat} (hrun : fileOpen inodeNr flags s = .ok (r, t)) :
    t.gFtLock = s.gFtLock ↔ FreeSlot s := by
  refine underLock (within_pure none) (fun g => opened_lock inodeNr flags g ?_) hrun
  intro p
  refine (mounts (inodeAt_table p)).bind fun x => within_ite (fun _ => within_pure none) fun _ => ?_
  grind

theorem openLfb_lock {inodeNr flags : Nat} (hrun : openLfb inodeNr flags s = .ok (r, t)) :
    t.gFtLock = s.gFtLock ↔ FreeSlot s :=
  underLock (within_pure none)
    (fun g => opened_lock inodeNr flags g fun _ => mounts (installThreadFd_table _)) hrun

theorem mustMalloc_ok {n : Nat} {u : Unit} (h : mustMalloc n s = .ok (u, t)) : t = s.nextMalloc := by
  obtain ⟨ok, s', hm, hc⟩ := bind_eq_ok.mp h
  obtain ⟨rfl, rfl⟩ := check_eq_ok.mp hc
  by_cases hn : n = 0
  · rw [hn] at hm
    cases hm
  · rw [sysMalloc_ok hn] at hm
    exact (congrArg Prod.snd (Except.ok.inj hm)).symm

theorem openPkgServer_lock {parent : Nat} {name : Name}
    (hrun : openPkgServer parent name s = .ok (r, t)) :
    t.gFtLock = s.gFtLock ↔ (ReachesSlot s.nextMalloc.nextMalloc → FreeSlot s) := by
  obtain ⟨server, s₁, hs, hrun⟩ := bind_eq_ok.mp hrun
  obtain ⟨u, s₂, hm, hs⟩ := bind_eq_ok.mp hs
  obtain ⟨u', s₃, hm', hs⟩ := bind_eq_ok.mp hs
  cases mustMalloc_ok hm
  cases mustMalloc_ok hm'
  cases hs
  obtain ⟨g, s₄, hc, hi⟩ := bind_eq_ok.mp hrun
  have hlock : t.gFtLock = s₄.gFtLock := locks (mounts (installThreadFd_table g)) _ _ _ hi
  rw [hlock]
  exact createWith_lock (publishSpecial_lock _ _) hc

theorem openPkgClient_lock {inodeNr flags : Nat} (hrun : openPkgClient inodeNr flags s = .ok (r, t)) :
    t.gFtLock = s.gFtLock ↔ FreeSlot s := by
  obtain ⟨p, s₁, ho, hrun⟩ := bind_eq_ok.mp hrun
  obtain ⟨x, s₂, hx, hrun⟩ := bind_eq_ok.mp hrun
  obtain ⟨client, s₃, hc, hrun⟩ := bind_eq_ok.mp hrun
  have hclient : Within SameSlots createClient := by
    unfold createClient
    grind
  -- nothing has touched the table before the fetch
  have hslots : s₃.mountedTable = s.mountedTable :=
    (hclient _ _ _ hc).trans ((inodeAt_table p _ _ _ hx).trans (inodeOpen_table inodeNr _ _ _ ho))
  have htab : SameTable s s₃ := congrArg Prod.snd hslots
  have hslot : FreeSlot s₃ ↔ FreeSlot s := by
    unfold FreeSlot
    rw [show s₃.fileTable = s.fileTable from congrArg Prod.snd htab]
  rw [← show s₃.gFtLock = s.gFtLock from congrArg Prod.fst htab, ← hslot]
  refine underLock (within_pure none) (fun g => ?_) hrun
  refine (locks (mounts (mustMalloc_table _))).comp (Q := Released) (fun _ => ?_)
    fun _ _ _ hab hbc => hbc.trans (congrArg (· - 1) hab)
  refine (locks (mounts (newInodeObject_table _))).comp (Q := Released) (fun p => ?_)
    fun _ _ _ hab hbc => hbc.trans (congrArg (· - 1) hab)
  exact released (setFile_lock _ _) (mounts (installThreadFd_table _))

/-- A call that opens a file returns with the lock as it was exactly when it finds a slot, if it comes
to look for one. -/
theorem Opening.lock {c : Opening} (hrun : c.run s = .ok (r, t)) :
    t.gFtLock = s.gFtLock ↔ c.FindsSlot s := by
  cases c with
  | fileCreate parent name flag => exact createWith_lock (publishFile_lock _ _) hrun
  | fileOpen inodeNr flags => exact fileOpen_lock hrun
  | openLfb inodeNr flags => exact openLfb_lock hrun
  | kbdCreate parent name target => exact createWith_lock (publishSpecial_lock _ _) hrun
  | packagefsCreate parent name target => exact createWith_lock (publishSpecial_lock _ _) hrun
  | openPkg parent name inodeNr flags =>
    simp only [Opening.run, Fs.openPkg] at hrun
    simp only [Opening.FindsSlot]
    by_cases h : hasFlag flags oCreat = true
    · rw [if_pos h] at hrun ⊢
      exact openPkgServer_lock hrun
    · rw [if_neg h] at hrun ⊢
      exact openPkgClient_lock hrun

end Frog.Fs
