import Frog.Fs.FailedMkdir
import Frog.Fs.Locks
import Frog.Fs.Rmdir

/-!
# The walk of `sys_open`

The walk opens a directory, looks a name up and closes the directory before it opens the next. As
`inode_open` counts no reference to an inode that is in memory, closing takes one that others hold.
-/

namespace Frog.Fs

set_option autoImplicit false
open Bytes Prog

/-! ## References only go -/

/-- One less than a count of 16 bits. -/
def lessOne (n : Nat) : Nat := (n + 65535) % 65536

/-- No object below `n` comes to count more. -/
def Ebbs (n : Nat) (s t : State) : Prop :=
  n ≤ s.next → n ≤ t.next ∧ ∀ p, p < n → ∀ y, t.inodes p = some y →
    ∃ x, s.inodes p = some x ∧ lessOne y.iCount ≤ lessOne x.iCount

section Ebb
variable {n : Nat}

instance : Std.Refl (Ebbs n) := ⟨fun _ hn => ⟨hn, fun _ _ y h => ⟨y, h, le_rfl⟩⟩⟩

instance : IsTrans State (Ebbs n) where
  trans s t u h h' hn := by
    obtain ⟨ht, hcount⟩ := h hn
    obtain ⟨hu, hcount'⟩ := h' ht
    refine ⟨hu, fun p hp z hz => ?_⟩
    obtain ⟨y, hy, hle⟩ := hcount' p hp z hz
    obtain ⟨x, hx, hle'⟩ := hcount p hp y hy
    exact ⟨x, hx, hle.trans hle'⟩

/-- The inodes in memory, their list, and where the next one comes to lie. -/
def State.core (s : State) : (Nat → Option Inode) × List Nat × Nat :=
  (s.inodes, s.openInodes, s.next)

theorem ebbs_of_core {s t : State} (h : SamePart State.core s t) : Ebbs n s t := by
  have heq : t.core = s.core := h
  have hinodes : t.inodes = s.inodes := congrArg Prod.fst heq
  have hnext : t.next = s.next := congrArg (fun v => v.2.2) heq
  intro hn
  rw [hnext, hinodes]
  exact ⟨hn, fun _ _ y h => ⟨y, h, le_rfl⟩⟩

abbrev SameCore : State → State → Prop := SamePart State.core

@[grind ←] theorem ebbs {α : Type} {m : M α} (h : Within SameCore m) : Within (Ebbs n) m :=
  h.mono fun _ _ => ebbs_of_core

theorem OnlyEnv.core {s t : State} (h : OnlyEnv s t) : SameCore s t := by
  rw [h.eq]
  rfl

@[grind ←] theorem env_core {α : Type} {m : M α} (h : Within OnlyEnv m) : Within SameCore m :=
  h.mono fun _ _ => OnlyEnv.core

@[grind ←] theorem readJunk_core : Within SameCore readJunk := by
  intro s a t h
  cases h
  rfl

@[grind ←] theorem inodeAt_core (p : Nat) : Within SameCore (inodeAt p) := by
  unfold inodeAt
  grind

@[grind ←] theorem dirInode_core (d : Nat) : Within SameCore (dirInode d) := by
  unfold dirInode dirAt
  grind

@[grind ←] theorem fileAt_core (g : Nat) : Within SameCore (fileAt g) := by
  unfold fileAt
  grind

@[grind ←] theorem setFile_core (g : Nat) (f : File) : Within SameCore (setFile g f) :=
  within_modify fun _ => rfl

@[grind ←] theorem ideRead_core (lba cnt : Nat) : Within SameCore (ideRead lba cnt) := by
  unfold ideRead
  grind

@[grind ←] theorem ideWrite_core (lba : Nat) (buf : Store) (cnt : Nat) :
    Within SameCore (ideWrite lba buf cnt) :=
  (within_check _ _).bind fun _ => within_modify fun _ => rfl

@[grind ←] theorem setBit_core (m : BitmapType) (pos : Nat) (v : Bool) :
    Within SameCore (setBit m pos v) := by
  unfold setBit
  cases m <;>
    exact within_get.bind fun _ => (within_check _ _).bind fun _ => within_modify fun _ => rfl

@[grind ←] theorem inodeBitmapAlloc_core : Within SameCore inodeBitmapAlloc := by
  refine within_get.bind fun s => ?_
  split <;> grind

@[grind ←] theorem flushBitmap_core (m : BitmapType) (i : Nat) :
    Within SameCore (flushBitmap m i) := by
  unfold flushBitmap
  cases m <;> exact within_get.bind fun _ => ideWrite_core _ _ _

@[grind ←] theorem zoneBitmapAlloc_core : Within SameCore zoneBitmapAlloc := by
  refine within_get.bind fun s => ?_
  split <;> grind

@[grind ←] theorem takeZone_core : Within SameCore takeZone := by
  unfold takeZone takeFreeZone
  refine (zoneBitmapAlloc_core.bind fun lba => ?_).bind fun lba => within_need _ _
  split <;> grind

@[grind ←] theorem flushInode_core (x : Inode) : Within SameCore (flushInode x) := by
  unfold flushInode localeInode
  grind

@[grind ←] theorem installThreadFd_core (g : Option Nat) : Within SameCore (installThreadFd g) := by
  unfold installThreadFd
  refine within_get.bind fun s => ?_
  split
  · exact within_pure none
  · exact Within.bind (R := SameCore) (within_modify fun _ => rfl) fun _ => within_pure _

@[grind ←] theorem lockFetch_core : Within SameCore lockFetch := within_modify fun _ => rfl

@[grind ←] theorem lockRelease_core : Within SameCore lockRelease := within_modify fun _ => rfl

@[grind ←] theorem occupyFileTableSlot_core : Within SameCore occupyFileTableSlot :=
  within_get.bind fun _ => within_pure _

theorem searchPrefixZones_core (name : Name) (zones : Nat → Nat) (left i : Nat) :
    Within SameCore (searchPrefixZones name zones left i) := by
  induction left generalizing i with
  | zero => exact within_pure none
  | succ left ih =>
    unfold searchPrefixZones
    refine (ideRead_core _ _).bind fun buf => ?_
    split <;> grind

@[grind ←] theorem searchDirEntry_core (d : Nat) (name : Name) :
    Within SameCore (searchDirEntry d name) := by
  unfold searchDirEntry
  grind [searchPrefixZones_core]

@[grind ←] theorem freeInode_ebbs (p : Nat) : Within (Ebbs n) (freeInode p) := by
  refine within_modify fun s hn => ⟨hn, fun q _ y hy => ?_⟩
  replace hy : Function.update s.inodes p none q = some y := hy
  by_cases hq : q = p
  · subst hq
    rw [Function.update_self] at hy
    cases hy
  · rw [Function.update_of_ne hq] at hy
    exact ⟨y, hy, le_rfl⟩

/-- An in-core inode is replaced by one that does not count more. -/
theorem update_ebbs {β : Type} {p : Nat} {f : Inode → Inode} {k : M β}
    (hf : ∀ x, lessOne (f x).iCount ≤ lessOne x.iCount) (hk : Within (Ebbs n) k) :
    Within (Ebbs n) (do
      let x ← inodeAt p
      setInode p (f x)
      k) := by
  intro s r t h
  obtain ⟨x, s₁, hx, h⟩ := bind_eq_ok.mp h
  obtain ⟨_, s₂, hset, h⟩ := bind_eq_ok.mp h
  obtain ⟨hx, rfl⟩ := inodeAt_ok hx
  cases hset
  refine IsTrans.trans _ _ _ (fun hn => ?_) (hk _ _ _ h)
  refine ⟨hn, fun q _ y hy => ?_⟩
  replace hy : Function.update s₁.inodes p (some (f x)) q = some y := hy
  by_cases hq : q = p
  · subst hq
    rw [Function.update_self] at hy
    cases hy
    exact ⟨x, hx, hf x⟩
  · rw [Function.update_of_ne hq] at hy
    exact ⟨y, hy, le_rfl⟩

/-- A new in-core inode lies above. -/
@[grind ←] theorem newInodeObject_ebbs (x : Inode) : Within (Ebbs n) (newInodeObject x) := by
  intro s r t h hn
  cases h
  refine ⟨Nat.le_succ_of_le hn, fun q hq y hy => ?_⟩
  replace hy : Function.update s.inodes s.next (some x) q = some y := hy
  rw [Function.update_of_ne (by omega)] at hy
  exact ⟨y, hy, le_rfl⟩

@[grind ←] theorem listAddOpen_ebbs (p : Nat) : Within (Ebbs n) (listAddOpen p) :=
  within_modify fun _ hn => ⟨hn, fun _ _ y hy => ⟨y, hy, le_rfl⟩⟩

theorem findOpenInode_core (nr : Nat) (ps : List Nat) : Within SameCore (findOpenInode nr ps) := by
  induction ps with
  | nil => exact within_pure none
  | cons p ps ih =>
    unfold findOpenInode
    grind

@[grind ←] theorem inodeOpen_ebbs (nr : Nat) : Within (Ebbs n) (inodeOpen nr) := by
  unfold inodeOpen localeInode
  refine within_get.bind fun s => (ebbs (findOpenInode_core nr s.openInodes)).bind fun r => ?_
  cases r with
  | some p => exact within_pure p
  | none =>
    refine Within.bind (by grind) fun pos => Within.bind (by grind) fun _ => ?_
    refine Within.bind (by grind) fun _ => Within.bind (by grind) fun buf => ?_
    exact (newInodeObject_ebbs _).bind fun p => (listAddOpen_ebbs p).bind fun _ => within_pure p

@[grind ←] theorem dirOpen_ebbs (nr : Nat) : Within (Ebbs n) (dirOpen nr) := by
  refine (ebbs (env_core (mustMalloc_env _))).bind fun _ => (inodeOpen_ebbs nr).bind fun p => ?_
  intro s d t h
  cases h
  exact fun hn => ⟨Nat.le_succ_of_le hn, fun _ _ y hy => ⟨y, hy, le_rfl⟩⟩

@[grind ←] theorem inodeClose_ebbs (p : Nat) : Within (Ebbs n) (inodeClose p) := by
  intro s r t h hn
  obtain ⟨x, s₁, hx, -⟩ := bind_eq_ok.mp h
  have hx : s.inodes p = some x := (inodeAt_ok hx).1
  rw [inodeClose_ok hx h]
  unfold State.closed
  by_cases hc : (x.iCount + 65535) % 65536 = 0
  · rw [if_pos hc]
    refine ⟨hn, fun q _ y hy => ?_⟩
    replace hy : Function.update s.inodes p none q = some y := hy
    by_cases hq : q = p
    · subst hq
      rw [Function.update_self] at hy
      cases hy
    · rw [Function.update_of_ne hq] at hy
      exact ⟨y, hy, le_rfl⟩
  · rw [if_neg hc]
    refine ⟨hn, fun q _ y hy => ?_⟩
    replace hy : Function.update s.inodes p
      (some { x with iCount := (x.iCount + 65535) % 65536 }) q = some y := hy
    by_cases hq : q = p
    · subst hq
      rw [Function.update_self] at hy
      cases hy
      refine ⟨x, hx, ?_⟩
      simp only [lessOne]
      omega
    · rw [Function.update_of_ne hq] at hy
      exact ⟨y, hy, le_rfl⟩

@[grind ←] theorem dirClose_ebbs (d : Nat) : Within (Ebbs n) (dirClose d) :=
  within_ite (fun _ => within_pure ()) fun _ => (ebbs (dirInode_core d)).bind fun p =>
    (inodeClose_ebbs p).bind fun _ => ebbs (within_modify fun _ => rfl)

theorem openWalk_ebbs (d : Nat) (names : List Name) : Within (Ebbs n) (openWalk d names) := by
  induction names generalizing d with
  | nil => exact within_pure _
  | cons name names ih =>
    refine (ebbs (env_core (searchFile_env d name))).bind fun found => ?_
    cases found with
    | none => exact (dirClose_ebbs d).bind fun _ => within_pure none
    | some nr => exact (dirClose_ebbs d).bind fun _ => (dirOpen_ebbs nr).bind fun next => ih next

theorem growSize_ebbs (p : Nat) : Within (Ebbs n) (do
    growSize p
    pure true) := by
  unfold growSize
  rw [bind_assoc]
  exact update_ebbs (f := fun x => x.setSize (u32 (x.iSize + 24))) (fun _ => le_rfl) (within_pure true)

theorem flushIndirect_ebbs (p : Nat) (e : DirEntry) (zones : Nat → Nat) (i lba : Nat) :
    Within (Ebbs n) (flushIndirect p e zones i lba) := by
  unfold flushIndirect
  refine update_ebbs (f := (Inode.setZone · 12 lba)) (fun _ => le_rfl) ?_
  refine (ebbs zoneBitmapAlloc_core).bind fun r => (within_need _ _).bind fun second => ?_
  refine within_get.bind fun s => (ebbs (flushBitmap_core _ _)).bind fun _ => ?_
  exact (ebbs (ideWrite_core _ _ _)).bind fun _ => (ebbs (ideWrite_core _ _ _)).bind fun _ =>
    growSize_ebbs p

theorem flushZones_ebbs (p : Nat) (e : DirEntry) (zones : Nat → Nat) (left i : Nat) :
    Within (Ebbs n) (flushZones p e zones left i) := by
  induction left generalizing i with
  | zero => exact within_pure false
  | succ left ih =>
    unfold flushZones
    refine within_ite (fun _ => (ebbs takeZone_core).bind fun lba => ?_) fun _ =>
      (ebbs (ideRead_core _ _)).bind fun buf => ?_
    · exact within_ite
        (fun _ => update_ebbs (f := (Inode.setZone · i lba)) (fun _ => le_rfl) (ih _))
        fun _ => within_ite (fun _ => flushIndirect_ebbs _ _ _ _ _) fun _ => ih _
    · cases freeSlot buf with
      | some slot => exact (ebbs (ideWrite_core _ _ _)).bind fun _ => growSize_ebbs p
      | none => exact ih _

@[grind ←] theorem flushDirEntry_ebbs (d : Nat) (e : DirEntry) :
    Within (Ebbs n) (flushDirEntry d e) := by
  unfold flushDirEntry readTable
  refine (ebbs (dirInode_core d)).bind fun p => (ebbs (inodeAt_core p)).bind fun x => ?_
  exact (within_ite (fun _ => within_pure _) fun _ => ebbs (ideRead_core _ _)).bind fun table =>
    flushZones_ebbs p e _ 140 0

theorem createWith_ebbs {x : Nat → Inode} {ft : FileType} {name : Name}
    {tail : Nat → Nat → DirEntry → Nat → M (Option Nat)}
    (ht : ∀ p i e g, Within (Ebbs n) (tail p i e g)) :
    Within (Ebbs n) (createWith x ft name tail) := by
  unfold createWith
  refine (ebbs (env_core (sysMalloc_env _))).bind fun ok => within_ite (fun _ => within_pure none)
    fun _ => (ebbs inodeBitmapAlloc_core).bind fun r => ?_
  cases r with
  | none => exact within_pure none
  | some i =>
    refine (ebbs (env_core (sysMalloc_env _))).bind fun ok => within_ite (fun _ => ?_) fun _ => ?_
    · exact (ebbs (setBit_core _ _ _)).bind fun _ => within_pure none
    · refine (newInodeObject_ebbs _).bind fun p => Within.bind ?_ fun entry => ?_
      · exact (within_check _ _).bind fun _ => within_pure _
      · refine (ebbs lockFetch_core).bind fun _ => (ebbs occupyFileTableSlot_core).bind fun r => ?_
        cases r with
        | none =>
          exact (freeInode_ebbs p).bind fun _ => (ebbs (setBit_core _ _ _)).bind fun _ =>
            within_pure none
        | some g => exact ht p i entry g

theorem rollBack_ebbs (g p i : Nat) : Within (Ebbs n) (do
    setFile g clearedFile
    freeInode p
    setBit .inodeBitmap i false
    pure (none : Option Nat)) :=
  (ebbs (setFile_core _ _)).bind fun _ => (freeInode_ebbs p).bind fun _ =>
    (ebbs (setBit_core _ _ _)).bind fun _ => within_pure none

theorem publishFile_ebbs (parent flag p i : Nat) (e : DirEntry) (g : Nat) :
    Within (Ebbs n) (publishFile parent flag p i e g) := by
  refine (ebbs (setFile_core _ _)).bind fun _ => (ebbs lockRelease_core).bind fun _ => ?_
  refine (flushDirEntry_ebbs parent e).bind fun ok => within_ite (fun _ => ?_) fun _ =>
    rollBack_ebbs g p i
  refine (ebbs (dirInode_core _)).bind fun q => (ebbs (inodeAt_core _)).bind fun y => ?_
  refine (ebbs (flushInode_core _)).bind fun _ => (ebbs (inodeAt_core _)).bind fun x => ?_
  refine (ebbs (flushInode_core _)).bind fun _ => (ebbs (flushBitmap_core _ _)).bind fun _ => ?_
  exact (listAddOpen_ebbs p).bind fun _ => ebbs (installThreadFd_core _)

theorem publishSpecial_ebbs (parent : Nat) (name : Name) (p i : Nat) (e : DirEntry) (g : Nat) :
    Within (Ebbs n) (publishSpecial parent name p i e g) := by
  refine (ebbs (fileAt_core g)).bind fun f => (ebbs (setFile_core _ _)).bind fun _ => ?_
  refine (ebbs lockRelease_core).bind fun _ => (ebbs (searchDirEntry_core _ _)).bind fun found => ?_
  cases found with
  | some e' => exact (listAddOpen_ebbs p).bind fun _ => within_pure _
  | none =>
    refine (flushDirEntry_ebbs parent e).bind fun ok => within_ite (fun _ => ?_) fun _ =>
      rollBack_ebbs g p i
    exact (listAddOpen_ebbs p).bind fun _ => within_pure _

theorem fileCreate_ebbs (parent : Nat) (name : Name) (flag : Nat) :
    Within (Ebbs n) (fileCreate parent name flag) := by
  rw [fileCreate_eq]
  exact createWith_ebbs (publishFile_ebbs parent flag)

theorem openPkgServer_ebbs (parent : Nat) (name : Name) :
    Within (Ebbs n) (openPkgServer parent name) := by
  have hserver : Within (Ebbs n) (createServer name) := by
    unfold createServer
    refine (ebbs (env_core (mustMalloc_env _))).bind fun _ => ?_
    refine (ebbs (env_core (mustMalloc_env _))).bind fun _ => ?_
    exact (ebbs readJunk_core).bind fun _ => within_pure _
  unfold openPkgServer
  rw [funext (packagefsCreate_eq parent name)]
  refine hserver.bind fun target => Within.bind ?_ fun g => ebbs (installThreadFd_core g)
  exact createWith_ebbs (publishSpecial_ebbs parent name)

theorem openNew_ebbs (pathname : Name) (dir : Nat) (lastName : Name) (flags : Nat) :
    Within (Ebbs n) (openNew pathname dir lastName flags) := by
  have hclose : ∀ fd : Option Nat, Within (Ebbs n) (do
      dirClose dir
      pure fd) := fun fd => (dirClose_ebbs dir).bind fun _ => within_pure fd
  unfold openNew
  exact within_ite (fun _ => (openPkgServer_ebbs dir lastName).bind hclose) fun _ =>
    (fileCreate_ebbs dir lastName flags).bind hclose

end Ebb

/-! ## Opening what is there -/

section Existing
variable {R : State → State → Prop}

/-- What stays within a relation once the opening of an inode does, a new inode object and the
lock. -/
structure Opens (R : State → State → Prop) : Prop where
  core : ∀ s t, SameCore s t → R s t
  inode : ∀ nr, Within R (inodeOpen nr)
  object : ∀ x, Within R (newInodeObject x)
  lock : ∀ p g, Within R (do
    let x ← inodeAt p
    setInode p { x with iLock := 1 }
    installThreadFd g)

theorem Opens.same {α : Type} {m : M α} (h : Opens R) (hm : Within SameCore m) : Within R m :=
  hm.mono h.core

variable [Std.Refl R] [IsTrans State R]

theorem Opens.looksAt (h : Opens R) (nr : Nat) (test : Inode → Bool) : Within R (do
    let p ← inodeOpen nr
    let x ← inodeAt p
    pure (test x)) :=
  (h.inode nr).bind fun p => (h.same (inodeAt_core p)).bind fun _ => within_pure _

/-- With the lock held, a slot is looked for. -/
theorem Opens.underLock {tail : Nat → M (Option Nat)} (h : Opens R) (ht : ∀ g, Within R (tail g)) :
    Within R (do
      lockFetch
      match ← occupyFileTableSlot with
      | none => pure none
      | some g => tail g) := by
  refine (h.same lockFetch_core).bind fun _ => (h.same occupyFileTableSlot_core).bind fun r => ?_
  cases r with
  | none => exact within_pure none
  | some g => exact ht g

theorem Opens.openAux (h : Opens R) (nr flags : Nat) : Within R (openAux nr flags) := by
  refine h.underLock fun g => (h.inode nr).bind fun p => ?_
  refine (h.same (setFile_core _ _)).bind fun _ => ?_
  exact (h.same lockRelease_core).bind fun _ => h.same (installThreadFd_core _)

theorem Opens.openPkgClient (h : Opens R) (nr flags : Nat) : Within R (openPkgClient nr flags) := by
  refine (h.inode nr).bind fun p => (h.same (inodeAt_core p)).bind fun _ => Within.bind ?_
    fun client => h.underLock fun g => ?_
  · unfold createClient
    exact (h.same (env_core (mustMalloc_env _))).bind fun _ =>
      (h.same readJunk_core).bind fun _ => within_pure _
  · refine (h.same (env_core (mustMalloc_env _))).bind fun _ => (h.object _).bind fun p => ?_
    exact (h.same (setFile_core _ _)).bind fun _ => (h.same lockRelease_core).bind fun _ =>
      h.same (installThreadFd_core _)

theorem Opens.fileOpen (h : Opens R) (nr flags : Nat) : Within R (fileOpen nr flags) := by
  refine h.underLock fun g => (h.inode nr).bind fun p => ?_
  refine (h.same (setFile_core _ _)).bind fun _ => ?_
  refine (h.same lockRelease_core).bind fun _ => ?_
  intro s r t hrun
  obtain ⟨x, s₁, hx, hrest⟩ := bind_eq_ok.mp hrun
  obtain rfl := (inodeAt_ok hx).2
  split at hrest
  · cases hrest
    exact Std.Refl.refl _
  · split at hrest
    · exact h.lock p (some g) _ _ _ ((bind_ok hx).trans hrest)
    · exact h.same (installThreadFd_core _) _ _ _ hrest

/-- The call once `is_char_file` has answered. -/
theorem Opens.openKind (h : Opens R) (nr flags : Nat) (char : Bool) : Within R (do
    if char then
      if ← isDev nr dnoAux then Fs.openAux nr flags
      else if ← isDev nr dnoLfb then openLfb nr flags
      else Fs.openAux nr flags
    else if ← isPkgFile nr then Fs.openPkgClient nr flags
    else Fs.fileOpen nr flags) := by
  refine within_ite (fun _ => ?_) fun _ => ?_
  · refine Within.bind (h.looksAt nr _) fun aux => within_ite (fun _ => h.openAux nr flags)
      fun _ => Within.bind (h.looksAt nr _) fun lfb => ?_
    exact within_ite (fun _ => h.openAux nr flags) fun _ => h.openAux nr flags
  · refine Within.bind (h.looksAt nr _) fun pkg => ?_
    exact within_ite (fun _ => h.openPkgClient nr flags) fun _ => h.fileOpen nr flags

theorem Opens.openExisting (h : Opens R) (nr flags : Nat) : Within R (openExisting nr flags) :=
  Within.bind (h.looksAt nr _) fun char => h.openKind nr flags char

theorem opens_ebbs (n : Nat) : Opens (Ebbs n) where
  core _ _ := ebbs_of_core
  inode := inodeOpen_ebbs
  object := newInodeObject_ebbs
  lock _ _ := update_ebbs (fun _ => le_rfl) (ebbs (installThreadFd_core _))

/-- The list of open inodes gets longer. -/
def Grows (s t : State) : Prop := s.openInodes.length ≤ t.openInodes.length

instance : Std.Refl Grows := ⟨fun _ => Nat.le_refl _⟩

instance : IsTrans State Grows := ⟨fun _ _ _ => Nat.le_trans⟩

theorem grows_of_core {s t : State} (h : SameCore s t) : Grows s t := by
  have hlist : t.openInodes = s.openInodes :=
    congrArg (fun v => v.2.1) (show t.core = s.core from h)
  unfold Grows
  rw [hlist]

theorem inodeOpen_grows (nr : Nat) : Within Grows (inodeOpen nr) := by
  intro s p t h
  rcases inodeOpen_ok h with ⟨-, rfl⟩ | ⟨-, rfl, e, rfl⟩
  · exact Std.Refl.refl _
  · exact Nat.le_succ _

theorem opens_grows : Opens Grows where
  core _ _ := grows_of_core
  inode := inodeOpen_grows
  object x s p t h := by
    cases h
    exact Nat.le_refl _
  lock p g := by
    refine ((inodeAt_core p).mono fun _ _ => grows_of_core).bind fun x => ?_
    exact Within.bind (within_modify fun _ => Nat.le_refl _) fun _ =>
      (installThreadFd_core g).mono fun _ _ => grows_of_core

end Existing

/-! ## The directory that is open -/

section Walk
variable {s t u : State} {m : Option Nat} {nr d p : Nat} {x y : Inode}

/-- An inode that was in memory has lost a reference. -/
def Spoilt (s t : State) : Prop :=
  s.next ≤ t.next ∧ ∃ p ∈ s.openInodes, ∃ x, s.inodes p = some x ∧
    ∀ y, t.inodes p = some y → lessOne y.iCount < lessOne x.iCount

theorem Spoilt.later (hf : s.Fresh) (h : Spoilt s t) (he : Ebbs s.next t u) : Spoilt s u := by
  obtain ⟨hnext, p, hp, x, hx, hlost⟩ := h
  obtain ⟨hnext', hcount⟩ := he hnext
  refine ⟨hnext', p, hp, x, hx, fun z hz => ?_⟩
  obtain ⟨y, hy, hle⟩ := hcount p (hf.openInodes p hp) z hz
  exact lt_of_le_of_lt hle (hlost y hy)

/-- Everything but the objects, the lock and the outside. -/
def State.sansObjects (s : State) : State :=
  { s.sansEnv with inodes := fun _ => none, dirs := fun _ => none, next := 0, gFtLock := 0 }

/-- Only objects that did not exist have come or gone. -/
structure SameOld (s t : State) : Prop where
  rest : t.sansObjects = s.sansObjects
  inodes : ∀ p, p < s.next → t.inodes p = s.inodes p
  dirs : ∀ d, d < s.next → t.dirs d = s.dirs d
  later : s.next ≤ t.next

theorem SameOld.part {π : Type} (h : SameOld s t) (f : State → π) :
    f t.sansObjects = f s.sansObjects := by
  rw [h.rest]

theorem SameOld.refl (s : State) : SameOld s s := ⟨rfl, fun _ _ => rfl, fun _ _ => rfl, le_rfl⟩

theorem SameOld.trans (h : SameOld s t) (h' : SameOld t u) : SameOld s u where
  rest := h'.rest.trans h.rest
  inodes p hp := (h'.inodes p (hp.trans_le h.later)).trans (h.inodes p hp)
  dirs d hd := (h'.dirs d (hd.trans_le h.later)).trans (h.dirs d hd)
  later := h.later.trans h'.later

theorem OnlyEnv.keeps (h : OnlyEnv s t) : SameOld s t := by
  rw [h.eq]
  exact ⟨rfl, fun _ _ => rfl, fun _ _ => rfl, le_rfl⟩

/-- The directory `d` that a walk from `s` has open at `u`, of the inode `m` or the root. -/
inductive At (s u : State) : Option Nat → Nat → Inode → Prop
  | root {p : Nat} {x : Inode} (keeps : SameOld s u) (dir : DirAt s rootDir p x) (hp : p < s.next)
      (hd : rootDir < s.next) : At s u none rootDir x
  | held {nr p d : Nat} {x : Inode} (hin : inCore s nr = some p) (hne : d ≠ rootDir)
      (hlt : d < u.next) (keeps : SameOld s u) (dir : DirAt u d p x) : At s u (some nr) d x
  | loaded {nr p d : Nat} {x : Inode} (hnone : inCore s nr = none) (hne : d ≠ rootDir)
      (hp : s.next ≤ p) (hd : s.next ≤ d) (hlt : p < u.next ∧ d < u.next)
      (keeps : SameOld s { u with openInodes := s.openInodes })
      (list : u.openInodes = p :: s.openInodes) (dir : DirAt u d p x) (count : x.iCount = 1) :
      At s u (some nr) d x

/-- Closing the directory takes no reference. -/
def Shut (s : State) (m : Option Nat) : Prop := ∀ nr, m = some nr → inCore s nr = none

theorem SameOld.dirAt (h : SameOld s t) (hd : d < s.next) (hp : p < s.next) (hat : DirAt s d p x) :
    DirAt t d p x :=
  ⟨by rw [h.dirs d hd, hat.1], by rw [h.inodes p hp, hat.2]⟩

theorem At.later (hf : s.Fresh) (h : At s u m d x) (hk : SameOld u t) : At s t m d x := by
  cases h with
  | root keeps dir hp hd => exact .root (keeps.trans hk) dir hp hd
  | held hin hne hlt keeps dir =>
    have hp := hf.openInodes _ (findIn_mem hin)
    exact .held hin hne (hlt.trans_le hk.later) (keeps.trans hk)
      (hk.dirAt hlt (hp.trans_le keeps.later) dir)
  | loaded hnone hne hp hd hlt keeps list dir count =>
    have hlist : t.openInodes = u.openInodes := hk.part State.openInodes
    refine .loaded hnone hne hp hd ⟨hlt.1.trans_le hk.later, hlt.2.trans_le hk.later⟩
      (keeps.trans ⟨?_, hk.inodes, hk.dirs, hk.later⟩) (hlist.trans list) (hk.dirAt hlt.2 hlt.1 dir)
      count
    have hrest := hk.part fun v => { v with openInodes := s.openInodes }
    exact hrest

theorem At.dirAt (hf : s.Fresh) (h : At s u m d x) :
    ∃ p, p < u.next ∧ d < u.next ∧ DirAt u d p x := by
  cases h with
  | root keeps dir hp hd =>
    exact ⟨_, hp.trans_le keeps.later, hd.trans_le keeps.later, keeps.dirAt hd hp dir⟩
  | held hin hne hlt keeps dir =>
    exact ⟨_, (hf.openInodes _ (findIn_mem hin)).trans_le keeps.later, hlt, dir⟩
  | loaded hnone hne hp hd hlt keeps list dir count => exact ⟨_, hlt.1, hlt.2, dir⟩

/-- The list of open inodes apart, nothing old has changed. -/
theorem At.keeps (h : At s u m d x) : SameOld s { u with openInodes := s.openInodes } := by
  have hsame : ∀ {u : State}, SameOld s u → SameOld s { u with openInodes := s.openInodes } := by
    intro u hk
    have hlist : u.openInodes = s.openInodes := hk.part State.openInodes
    rw [← hlist]
    exact hk
  cases h with
  | root keeps dir hp hd => exact hsame keeps
  | held hin hne hlt keeps dir => exact hsame keeps
  | loaded hnone hne hp hd hlt keeps list dir count => exact keeps

/-- A directory that others hold loses a reference, one that was loaded is gone again. -/
theorem At.close (hf : s.Fresh) (h : At s u m d x) (hrun : dirClose d u = .ok ((), t)) :
    Shut s m ∧ SameOld s t ∨ ¬ Shut s m ∧ Spoilt s t := by
  cases h with
  | root keeps dir hp hd =>
    unfold dirClose at hrun
    rw [if_pos rfl] at hrun
    cases hrun
    exact .inl ⟨nofun, keeps⟩
  | @held nr p d x hin hne hlt keeps dir =>
    have hmem := findIn_mem hin
    have hold := hf.openInodes p hmem
    have hheld : ¬ Shut s (some nr) := fun h => by cases hin.symm.trans (h nr rfl)
    refine .inr ⟨hheld, ?_⟩
    rw [dirClose_ok hne dir hrun]
    have hx : s.inodes p = some x := by rw [← keeps.inodes p hold, dir.2]
    unfold State.closed
    by_cases hc : (x.iCount + 65535) % 65536 = 0
    · rw [if_pos hc]
      refine ⟨keeps.later, p, hmem, x, hx, fun y hy => ?_⟩
      replace hy : Function.update u.inodes p none p = some y := hy
      rw [Function.update_self] at hy
      cases hy
    · rw [if_neg hc]
      refine ⟨keeps.later, p, hmem, x, hx, fun y hy => ?_⟩
      replace hy : Function.update u.inodes p
        (some { x with iCount := (x.iCount + 65535) % 65536 }) p = some y := hy
      rw [Function.update_self] at hy
      cases hy
      simp only [lessOne]
      omega
  | @loaded nr p d x hnone hne hp hd hlt keeps list dir count =>
    have hshut : Shut s (some nr) := fun nr' h => by
      cases h
      exact hnone
    refine .inl ⟨hshut, ?_⟩
    rw [dirClose_ok hne dir hrun]
    unfold State.closed
    rw [if_pos (by rw [count])]
    refine ⟨?_, fun q hq => ?_, fun e he => ?_, keeps.later⟩
    · have hlist : u.openInodes.erase p = s.openInodes := by rw [list, List.erase_cons_head]
      have hrest := keeps.rest
      simp only [State.sansObjects, State.sansEnv] at hrest ⊢
      rw [hlist]
      exact hrest
    · show Function.update u.inodes p none q = s.inodes q
      rw [Function.update_of_ne (by omega)]
      exact keeps.inodes q hq
    · show Function.update u.dirs d none e = s.dirs e
      rw [Function.update_of_ne (by omega)]
      exact keeps.dirs e he

end Walk

/-! ## The memory that is left -/

section Memory
variable {s t u : State} {d p nr : Nat} {x : Inode} {r : Option Nat} {name : Name}

/-- The memory has given `n` answers. -/
def Allocates (n : Nat) (s t : State) : Prop := ∀ i, t.env.malloc i = s.env.malloc (i + n)

theorem Allocates.refl (s : State) : Allocates 0 s s := fun _ => rfl

theorem Allocates.trans {m n : Nat} (h : Allocates m s t) (h' : Allocates n t u) :
    Allocates (m + n) s u := by
  intro i
  rw [h' i, h (i + n), Nat.add_assoc, Nat.add_comm n m]

theorem mustMalloc_allocates {n : Nat} {a : Unit} (h : mustMalloc n s = .ok (a, t)) :
    Allocates 1 s t := by
  cases mustMalloc_ok h
  exact fun _ => rfl

/-- A buffer, and one for the table. -/
def searchAllocs (x : Inode) : Nat := if x.iZones 12 = 0 then 1 else 2

theorem searchFile_allocates (hd : DirAt s d p x) (h : searchFile d name s = .ok (r, t)) :
    Allocates (searchAllocs x) s t := by
  unfold searchFile at h
  rw [bind_ok (dirInode_some hd.1), bind_ok (inodeAt_some hd.2)] at h
  unfold searchAllocs
  by_cases hx : x.iZones 12 = 0
  · rw [if_pos hx] at h ⊢
    obtain ⟨table, s₁, htable, hrest⟩ := bind_eq_ok.mp h
    cases htable
    obtain ⟨_, s₂, hm, hzones⟩ := bind_eq_ok.mp hrest
    obtain ⟨-, rfl⟩ := searchZones_ok hzones
    exact mustMalloc_allocates hm
  · rw [if_neg hx] at h ⊢
    obtain ⟨_, s₁, hm, hrest⟩ := bind_eq_ok.mp h
    obtain ⟨table, s₂, hread, hrest⟩ := bind_eq_ok.mp hrest
    obtain ⟨rfl, rfl⟩ := ideRead_ok hread
    obtain ⟨_, s₃, hm', hzones⟩ := bind_eq_ok.mp hrest
    obtain ⟨-, rfl⟩ := searchZones_ok hzones
    exact (mustMalloc_allocates hm).trans (mustMalloc_allocates hm')

/-- An inode that is loaded takes its object and a buffer. -/
def openAllocs (s : State) (nr : Nat) : Nat := if inCore s nr = none then 2 else 0

theorem inodeOpen_allocates (h : inodeOpen nr s = .ok (p, t)) :
    Allocates (openAllocs s nr) s t := by
  unfold inodeOpen at h
  rw [bind_ok (get_apply s)] at h
  obtain ⟨r, s₁, hfind, hrest⟩ := bind_eq_ok.mp h
  obtain ⟨hr, rfl⟩ := findOpenInode_ok hfind
  replace hr : inCore s₁ nr = r := hr.symm
  unfold openAllocs
  rw [hr]
  cases r with
  | some q =>
    cases hrest
    exact Allocates.refl _
  | none =>
    obtain ⟨pos, s₂, hpos, hload⟩ := bind_eq_ok.mp hrest
    obtain ⟨_, s₃, hm, hload⟩ := bind_eq_ok.mp hload
    obtain ⟨_, s₄, hm', hload⟩ := bind_eq_ok.mp hload
    obtain ⟨buf, s₅, hread, hload⟩ := bind_eq_ok.mp hload
    obtain ⟨_, s₆, hcheck, hpos⟩ := bind_eq_ok.mp hpos
    cases hcheck
    obtain ⟨_, s₇, hcheck, hpos⟩ := bind_eq_ok.mp hpos
    cases (check_eq_ok.mp hcheck).2
    cases hpos
    obtain ⟨rfl, rfl⟩ := ideRead_ok hread
    cases hload
    exact (mustMalloc_allocates hm).trans (mustMalloc_allocates hm')

theorem dirOpen_allocates (h : dirOpen nr s = .ok (d, t)) :
    Allocates (1 + openAllocs s nr) s t := by
  obtain ⟨_, s₁, hm, hrest⟩ := bind_eq_ok.mp h
  obtain ⟨p, s₂, hopen, hnew⟩ := bind_eq_ok.mp hrest
  have hafter := inodeOpen_allocates hopen
  cases mustMalloc_ok hm
  cases hnew
  exact (mustMalloc_allocates hm).trans hafter

theorem dirClose_allocates (hd : DirAt s d p x) (h : dirClose d s = .ok ((), t)) :
    Allocates 0 s t := by
  by_cases hroot : d = rootDir
  · unfold dirClose at h
    rw [if_pos hroot] at h
    cases h
    exact Allocates.refl s
  · rw [dirClose_ok hroot hd h]
    unfold State.closed
    split
    · exact fun _ => rfl
    · exact fun _ => rfl

/-- What a walk along the names takes. -/
def walkAllocs (s : State) : Inode → List Name → Nat
  | _, [] => 0
  | y, name :: names => searchAllocs y +
    match nameIn s.disk y name with
    | none => 0
    | some nr => 1 + openAllocs s nr + walkAllocs s (inodeNow s nr) names

end Memory

/-! ## Along the names -/

section Along
variable {s t u : State} {m : Option Nat} {nr d p : Nat} {x y : Inode}

theorem findIn_congr {inodes inodes' : Nat → Option Inode} {ps : List Nat}
    (h : ∀ p ∈ ps, inodes' p = inodes p) : findIn inodes' nr ps = findIn inodes nr ps := by
  induction ps with
  | nil => rfl
  | cons p ps ih =>
    unfold findIn
    rw [h p List.mem_cons_self, ih fun q hq => h q (List.mem_cons_of_mem p hq)]

theorem SameOld.inCore_eq (hf : s.Fresh) (h : SameOld s u) : inCore u nr = inCore s nr := by
  have hlist : u.openInodes = s.openInodes := h.part State.openInodes
  unfold inCore
  rw [hlist]
  exact findIn_congr fun p hp => h.inodes p (hf.openInodes p hp)

theorem SameOld.storedInode_eq (h : SameOld s u) : storedInode u nr = storedInode s nr := by
  have hdisk : u.disk = s.disk := h.part State.disk
  have hsb : u.sb = s.sb := h.part State.sb
  unfold storedInode
  rw [hdisk, hsb]

/-- The same inode but for its count. -/
def SameButCount (x y : Inode) : Prop := x = { y with iCount := x.iCount }

theorem SameButCount.nameIn_eq {disk : Store} {name : Name} (h : SameButCount x y) :
    nameIn disk x name = nameIn disk y name := by
  rw [h]
  rfl

/-- The numbers under the names, from an inode on. -/
inductive Leads (s : State) : Inode → List Name → Inode → Prop
  | nil (x : Inode) : Leads s x [] x
  | cons {x y : Inode} {name : Name} {names : List Name} {nr : Nat}
      (hname : nameIn s.disk x name = some nr) (hrest : Leads s (inodeNow s nr) names y) :
      Leads s x (name :: names) y

/-- The bitmaps cover their areas, nothing lies where the next objects come to lie, and no inode of
the table has a count, as `flush_inode` stores none. -/
structure OpenOk (s : State) : Prop where
  layout : Layout s.sb
  map : ZoneMapOk s
  fresh : s.Fresh
  inodes : ∀ p, s.next ≤ p → s.inodes p = none
  stored : ∀ nr, nr < s.sb.sNinodes → (storedInode s nr).iCount = 0

theorem SameButCount.searchAllocs_eq (h : SameButCount x y) : searchAllocs x = searchAllocs y := by
  rw [h]
  rfl

theorem SameOld.openAllocs_eq (hf : s.Fresh) (h : SameOld s u) :
    openAllocs u nr = openAllocs s nr := by
  rw [openAllocs, h.inCore_eq hf, openAllocs]

theorem SameOld.opened (hok : OpenOk s) (h : SameOld s u) (hnext : s.next ≠ 0)
    (hrun : dirOpen nr u = .ok (d, t)) :
    ∃ x, At s t (some nr) d x ∧ SameButCount x (inodeNow s nr) := by
  have hne : u.next ≠ rootDir := fun h0 => hnext (Nat.le_zero.mp (h.later.trans (Nat.le_of_eq h0)))
  rcases dirOpen_state hrun with ⟨p, e, hin, rfl, rfl⟩ | ⟨hnone, hnr, rfl, e, rfl⟩
  · rw [h.inCore_eq hok.fresh] at hin
    obtain ⟨x, hx, -⟩ := findIn_inode hin
    have hx' : u.inodes p = some x := by
      rw [h.inodes p (hok.fresh.openInodes p (findIn_mem hin)), hx]
    refine ⟨x, .held hin hne (Nat.lt_succ_self u.next) (h.trans ⟨rfl, fun _ _ => rfl, ?_, ?_⟩)
      ⟨?_, hx'⟩, ?_⟩
    · exact fun d hd => Function.update_of_ne (by omega) _ _
    · exact Nat.le_succ u.next
    · simp only [Function.update_self, Option.bind_some]
    · have hnow : inodeNow s nr = x := by rw [inodeNow, hin, Option.bind_some, hx, Option.getD_some]
      rw [hnow]
      rfl
  · have hcore : inCore s nr = none := by rw [← h.inCore_eq hok.fresh, hnone]
    have hsb : u.sb = s.sb := h.part State.sb
    have hcount : (storedInode u nr).iCount = 0 := by
      rw [h.storedInode_eq]
      exact hok.stored nr (hsb ▸ hnr)
    have hlist : u.openInodes = s.openInodes := h.part State.openInodes
    refine ⟨counted (storedInode u nr), .loaded (p := u.next) hcore (Nat.succ_ne_zero _) h.later
      (h.later.trans (Nat.le_succ _)) ⟨Nat.lt_succ_of_lt (Nat.lt_succ_self _), Nat.lt_succ_self _⟩
      ⟨?_, fun q hq => ?_, fun e he => ?_, ?_⟩ ?_ ⟨?_, ?_⟩ ?_, ?_⟩
    · have hrest := h.rest
      simp only [State.sansObjects, State.sansEnv] at hrest ⊢
      rw [hlist] at hrest
      exact hrest
    · have hlater := h.later
      show Function.update u.inodes u.next _ q = s.inodes q
      rw [Function.update_of_ne (by omega)]
      exact h.inodes q hq
    · have hlater := h.later
      show Function.update u.dirs (u.next + 1) _ e = s.dirs e
      rw [Function.update_of_ne (by omega)]
      exact h.dirs e he
    · exact h.later.trans (Nat.le_add_right _ _)
    · show u.next :: u.openInodes = u.next :: s.openInodes
      rw [hlist]
    · simp only [Function.update_self, Option.bind_some]
    · exact Function.update_self ..
    · simp only [counted, hcount]
    · have hnow : inodeNow s nr = storedInode u nr := by
        rw [inodeNow, hcore, Option.bind_none, Option.getD_none, h.storedInode_eq]
      rw [hnow]
      rfl

/-- Every directory that the walk closes takes no reference, and `C` holds where it ends. -/
def WalkClean (s : State) (C : Option Nat → Inode → Prop) : Option Nat → Inode → List Name → Prop
  | m, y, [] => C m y
  | m, y, name :: names => Shut s m ∧
      ∀ nr, nameIn s.disk y name = some nr → WalkClean s C (some nr) (inodeNow s nr) names

/-- A walk takes a reference, or it fails and has changed nothing, or it has a directory open. -/
theorem openWalk_at (hok : OpenOk s) (hnext : s.next ≠ 0) {C : Option Nat → Inode → Prop}
    {names : List Name} {r : Option Nat} (h : At s u m d x) (hx : SameButCount x y)
    (hrun : openWalk d names u = .ok (r, t)) :
    (Spoilt s t ∧ ¬ WalkClean s C m y names) ∨
      (r = none ∧ SameOld s t ∧ WalkClean s C m y names) ∨
        ∃ d' m' x' y', r = some d' ∧ At s t m' d' x' ∧ SameButCount x' y' ∧
          Leads s y names y' ∧ Allocates (walkAllocs s y names) u t ∧
            (WalkClean s C m y names ↔ C m' y') := by
  induction names generalizing u m d x y with
  | nil =>
    cases hrun
    exact .inr (.inr ⟨d, m, x, y, rfl, h, hx, .nil y, Allocates.refl _, Iff.rfl⟩)
  | cons name names ih =>
    obtain ⟨found, v, hsearch, hrest⟩ := bind_eq_ok.mp hrun
    obtain ⟨p, -, -, hat⟩ := h.dirAt hok.fresh
    obtain ⟨hfound, henv⟩ := searchFile_ok hat hsearch
    have hdisk : u.disk = s.disk := h.keeps.part State.disk
    rw [hdisk, hx.nameIn_eq] at hfound
    have hv := h.later hok.fresh henv.keeps
    have hcount := searchFile_allocates hat hsearch
    rw [hx.searchAllocs_eq] at hcount
    cases found with
    | none =>
      obtain ⟨_, w, hclose, hpure⟩ := bind_eq_ok.mp hrest
      cases hpure
      rcases hv.close hok.fresh hclose with ⟨hshut, hkeeps⟩ | ⟨hshut, hspoilt⟩
      · refine .inr (.inl ⟨rfl, hkeeps, hshut, fun nr hnr => ?_⟩)
        cases hfound.trans hnr
      · exact .inl ⟨hspoilt, fun hclean => hshut hclean.1⟩
    | some nr =>
      obtain ⟨_, w, hclose, hrest⟩ := bind_eq_ok.mp hrest
      rcases hv.close hok.fresh hclose with ⟨hshut, hkeeps⟩ | ⟨hshut, hspoilt⟩
      · obtain ⟨next, w', hopen, hwalk⟩ := bind_eq_ok.mp hrest
        obtain ⟨x', hat', hx'⟩ := hkeeps.opened hok hnext hopen
        have hcond : WalkClean s C m y (name :: names) ↔
            WalkClean s C (some nr) (inodeNow s nr) names := by
          refine ⟨fun hclean => hclean.2 nr hfound.symm, fun hclean => ⟨hshut, fun nr' hnr => ?_⟩⟩
          cases hfound.trans hnr
          exact hclean
        have hopens := dirOpen_allocates hopen
        rw [hkeeps.openAllocs_eq hok.fresh] at hopens
        have htaken := hcount.trans ((dirClose_allocates (hat.of_env henv) hclose).trans hopens)
        rw [hcond]
        rcases ih hat' hx' hwalk with
          hspoilt | hfails | ⟨d', m', x', y', hr, hat, hxy, hleads, hafter, hiff⟩
        · exact .inl hspoilt
        · exact .inr (.inl hfails)
        · refine .inr (.inr ⟨d', m', x', y', hr, hat, hxy, .cons hfound.symm hleads, ?_, hiff⟩)
          have hall := htaken.trans hafter
          rw [walkAllocs, ← hfound]
          simp only [Nat.zero_add, Nat.add_assoc] at hall ⊢
          exact hall
      · refine .inl ⟨hspoilt.later hok.fresh ?_, fun hclean => hshut hclean.1⟩
        exact (dirOpen_ebbs nr).bind (fun next => openWalk_ebbs next names) _ _ _ hrest

end Along

end Frog.Fs
