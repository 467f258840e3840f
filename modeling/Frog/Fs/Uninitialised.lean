import Frog.Fs.InodeTable
import Frog.Fs.Rmdir
import Frog.Lib.Commute

/-!
# What a new inode is made of

`sys_malloc` clears its blocks, so an inode or a copied path on the heap holds nothing old. The inode
that `sys_mkdir` stores lies on the stack, and `new_inode` sets five of its fields.
-/

namespace Frog.Fs

set_option autoImplicit false
open Bytes Prog

/-! ## Calls that read nothing old -/

def overJunk (junk : Nat → Store) (s : State) : State := s.withJunk junk

/-- The program does not see what unwritten memory holds. -/
abbrev Blind {α : Type} (junk : Nat → Store) (m : M α) : Prop := Commutes (overJunk junk) m

section Family
variable {junk : Nat → Store}

@[grind ←] theorem sysMalloc_blind (n : Nat) : Blind junk (sysMalloc n) := by
  intro s
  unfold sysMalloc
  split <;> rfl

@[grind ←] theorem mustMalloc_blind (n : Nat) : Blind junk (mustMalloc n) := by
  unfold mustMalloc
  grind

@[grind ←] theorem readTail_blind : Blind junk readTail := fun _ => rfl

@[grind ←] theorem inodeAt_blind (p : Nat) : Blind junk (inodeAt p) :=
  commutes_get (fun _ => rfl) fun _ => commutes_need _ _

@[grind ←] theorem setInode_blind (p : Nat) (x : Inode) : Blind junk (setInode p x) :=
  commutes_modify fun _ => rfl

@[grind ←] theorem freeInode_blind (p : Nat) : Blind junk (freeInode p) := commutes_modify fun _ => rfl

@[grind ←] theorem newInodeObject_blind (x : Inode) : Blind junk (newInodeObject x) := fun _ => rfl

@[grind ←] theorem dirAt_blind (d : Nat) : Blind junk (dirAt d) :=
  commutes_get (fun _ => rfl) fun _ => commutes_need _ _

@[grind ←] theorem newDirObject_blind (x : Dir) : Blind junk (newDirObject x) := fun _ => rfl

@[grind ←] theorem freeDir_blind (d : Nat) : Blind junk (freeDir d) := commutes_modify fun _ => rfl

@[grind ←] theorem dirInode_blind (d : Nat) : Blind junk (dirInode d) := by
  unfold dirInode
  grind

@[grind ←] theorem fileAt_blind (g : Nat) : Blind junk (fileAt g) :=
  commutes_get (fun _ => rfl) fun _ => commutes_pure _

@[grind ←] theorem setFile_blind (g : Nat) (f : File) : Blind junk (setFile g f) :=
  commutes_modify fun _ => rfl

@[grind ←] theorem ideRead_blind (lba cnt : Nat) : Blind junk (ideRead lba cnt) :=
  (commutes_check _ _).bind fun _ => commutes_get (fun _ => rfl) fun _ => commutes_pure _

@[grind ←] theorem ideWrite_blind (lba : Nat) (buf : Store) (cnt : Nat) :
    Blind junk (ideWrite lba buf cnt) :=
  (commutes_check _ _).bind fun _ => commutes_modify fun _ => rfl

@[grind ←] theorem setBit_blind (m : BitmapType) (pos : Nat) (v : Bool) :
    Blind junk (setBit m pos v) := by
  unfold setBit
  cases m <;> exact commutes_get (fun _ => rfl) fun _ => (commutes_check _ _).bind fun _ =>
    commutes_modify fun _ => rfl

@[grind ←] theorem flushBitmap_blind (m : BitmapType) (i : Nat) : Blind junk (flushBitmap m i) := by
  unfold flushBitmap
  cases m <;> exact commutes_get (fun _ => rfl) fun _ => ideWrite_blind _ _ _

@[grind ←] theorem inodeBitmapAlloc_blind : Blind junk inodeBitmapAlloc := by
  refine commutes_get (fun _ => rfl) fun s => ?_
  split <;> grind

@[grind ←] theorem zoneBitmapAlloc_blind : Blind junk zoneBitmapAlloc := by
  refine commutes_get (fun _ => rfl) fun s => ?_
  split <;> grind

@[grind ←] theorem takeFreeZone_blind : Blind junk takeFreeZone := by
  refine zoneBitmapAlloc_blind.bind fun lba => ?_
  cases lba with
  | none => exact commutes_pure none
  | some lba =>
    exact commutes_get (fun _ => rfl) fun s => (flushBitmap_blind _ _).bind fun _ => commutes_pure _

/-! ### Inodes and directories -/

@[grind ←] theorem localeInode_blind (nr : Nat) : Blind junk (localeInode nr) :=
  commutes_get (fun _ => rfl) fun _ => (commutes_check _ _).bind fun _ => commutes_pure _

@[grind ←] theorem flushInode_blind (x : Inode) : Blind junk (flushInode x) := by
  refine (localeInode_blind _).bind fun pos => commutes_get (fun _ => rfl) fun s => ?_
  grind

@[grind ←] theorem listAddOpen_blind (p : Nat) : Blind junk (listAddOpen p) :=
  commutes_modify fun _ => rfl

@[grind ←] theorem findOpenInode_blind (nr : Nat) (ps : List Nat) : Blind junk (findOpenInode nr ps) := by
  induction ps with
  | nil => exact commutes_pure none
  | cons p ps ih =>
    exact (inodeAt_blind p).bind fun x => commutes_ite (fun _ => commutes_pure _) fun _ => ih

@[grind ←] theorem inodeOpen_blind (nr : Nat) : Blind junk (inodeOpen nr) := by
  refine commutes_get (fun _ => rfl) fun s => (findOpenInode_blind nr _).bind fun r => ?_
  cases r with
  | some p => exact commutes_pure p
  | none => grind

@[grind ←] theorem inodeClose_blind (p : Nat) : Blind junk (inodeClose p) := by
  refine (inodeAt_blind p).bind fun x => commutes_ite (fun _ => ?_) fun _ => setInode_blind _ _
  refine commutes_get (fun _ => rfl) fun s => (commutes_check _ _).bind fun _ => ?_
  refine Commutes.bind ?_ fun _ => freeInode_blind p
  exact commutes_modify fun _ => rfl

@[grind ←] theorem dirOpen_blind (nr : Nat) : Blind junk (dirOpen nr) := by
  unfold dirOpen
  grind

@[grind ←] theorem dirClose_blind (d : Nat) : Blind junk (dirClose d) :=
  commutes_ite (fun _ => commutes_pure ()) fun _ => (dirInode_blind d).bind fun p =>
    (inodeClose_blind p).bind fun _ => freeDir_blind d

theorem searchZones_blind (name : Name) (zones : Nat → Nat) (left i : Nat) :
    Blind junk (searchZones name zones left i) := by
  induction left generalizing i with
  | zero => exact commutes_pure none
  | succ left ih =>
    refine (ideRead_blind _ _).bind fun buf => ?_
    cases searchSector name buf with
    | some r => exact commutes_pure r
    | none => exact ih (i + 1)

@[grind ←] theorem searchFile_blind (d : Nat) (name : Name) : Blind junk (searchFile d name) := by
  refine (dirInode_blind d).bind fun p => (inodeAt_blind p).bind fun x => ?_
  have hscan : ∀ table, Blind junk (do
      mustMalloc 512
      searchZones name (dirZones x table) 140 0) := fun table =>
    (mustMalloc_blind _).bind fun _ => searchZones_blind _ _ _ _
  exact commutes_ite (fun _ => (commutes_pure _).bind hscan) fun _ => (mustMalloc_blind _).bind fun _ =>
    (ideRead_blind _ _).bind hscan

@[grind ←] theorem newDirEntry_blind (name : Name) (nr : Nat) (t : FileType) :
    Blind junk (newDirEntry name nr t) :=
  (commutes_check _ _).bind fun _ => commutes_pure _

@[grind ←] theorem growSize_blind (p : Nat) : Blind junk (growSize p) := by
  unfold growSize
  grind

@[grind ←] theorem takeZone_blind : Blind junk takeZone := by
  unfold takeZone
  grind

@[grind ←] theorem flushIndirect_blind (p : Nat) (e : DirEntry) (zones : Nat → Nat) (i lba : Nat) :
    Blind junk (flushIndirect p e zones i lba) := by
  refine (inodeAt_blind p).bind fun x => (setInode_blind _ _).bind fun _ =>
    zoneBitmapAlloc_blind.bind fun r => (commutes_need _ _).bind fun second => ?_
  exact commutes_get (fun _ => rfl) fun s => by grind

theorem flushZones_blind (p : Nat) (e : DirEntry) (zones : Nat → Nat) (left i : Nat) :
    Blind junk (flushZones p e zones left i) := by
  induction left generalizing i with
  | zero => exact commutes_pure false
  | succ left ih =>
    refine commutes_ite (fun _ => takeZone_blind.bind fun lba => ?_) fun _ =>
      (ideRead_blind _ _).bind fun buf => ?_
    · refine commutes_ite (fun _ => ?_) fun _ => commutes_ite (fun _ => ?_) fun _ => ih _ <;> grind
    · cases freeSlot buf with
      | some slot => grind
      | none => exact ih (i + 1)

@[grind ←] theorem flushDirEntry_blind (d : Nat) (e : DirEntry) : Blind junk (flushDirEntry d e) := by
  refine (dirInode_blind d).bind fun p => (inodeAt_blind p).bind fun x => Commutes.bind ?_ fun table =>
    flushZones_blind _ _ _ _ _
  exact commutes_ite (fun _ => commutes_pure _) fun _ => ideRead_blind _ _

/-! ### Paths -/

@[grind ←] theorem copyPath_blind (path : Name) : Blind junk (copyPath path) := by
  refine (sysMalloc_blind _).bind fun ok => commutes_ite (fun _ => commutes_ite (fun _ => ?_) fun _ => ?_)
    fun _ => ?_ <;> grind

@[grind ←] theorem mustCopyPath_blind (path : Name) : Blind junk (mustCopyPath path) := by
  unfold mustCopyPath
  grind

@[grind ←] theorem pathPeel_blind (path : Name) : Blind junk (pathPeel path) :=
  commutes_ite (fun _ => commutes_pure _) fun _ => by grind

@[grind ←] theorem peelNames_blind (n : Nat) (path : Name) : Blind junk (peelNames n path) := by
  induction n generalizing path with
  | zero => exact commutes_pure []
  | succ n ih =>
    exact commutes_ite (fun _ => commutes_pure []) fun _ => (pathPeel_blind path).bind fun r =>
      (ih r.1).bind fun _ => commutes_pure _

@[grind ←] theorem pathDepth_blind (path : Name) : Blind junk (pathDepth path) :=
  commutes_ite (fun _ => commutes_pure 0) fun _ => by grind

@[grind ←] theorem pathDirs_blind (path : Name) (depth : Nat) : Blind junk (pathDirs path depth) := by
  refine (copyPath_blind path).bind fun r => ?_
  cases r with
  | none => exact commutes_pure none
  | some tmp => grind

theorem walkDirs_blind (isFile : Bool) (d : Nat) (names : List Name) :
    Blind junk (walkDirs isFile d names) := by
  induction names generalizing d with
  | nil => exact commutes_pure _
  | cons name names ih =>
    refine (searchFile_blind d name).bind fun r => ?_
    cases r with
    | none => exact commutes_pure _
    | some nr =>
      refine (dirOpen_blind nr).bind fun next => commutes_ite (fun _ => ?_) fun _ => ih next
      exact (dirAt_blind d).bind fun _ => commutes_pure _

@[grind ←] theorem searchFileWithPathname_blind (pathname : Name) :
    Blind junk (searchFileWithPathname pathname) := by
  refine (copyPath_blind pathname).bind fun r => ?_
  cases r with
  | none => exact commutes_pure _
  | some tmp =>
    refine (pathPeel_blind tmp).bind fun r => (pathDepth_blind pathname).bind fun depth =>
      (mustMalloc_blind _).bind fun _ => (pathDirs_blind pathname depth).bind fun dirs => ?_
    refine commutes_ite (fun _ => (searchFile_blind _ _).bind fun r => ?_) fun _ =>
      (walkDirs_blind _ _ _).bind fun w => ?_
    · cases r with
      | none => exact commutes_pure _
      | some nr => exact (dirAt_blind _).bind fun _ => commutes_pure _
    · cases w with
      | missing => exact commutes_pure _
      | target nr pdir => exact commutes_pure _
      | inside d => exact (searchFile_blind _ _).bind fun _ => (dirAt_blind _).bind fun _ => commutes_pure _

/-! ### Descriptors and new files -/

@[grind ←] theorem lockFetch_blind : Blind junk lockFetch := commutes_modify fun _ => rfl

@[grind ←] theorem lockRelease_blind : Blind junk lockRelease := commutes_modify fun _ => rfl

@[grind ←] theorem occupyFileTableSlot_blind : Blind junk occupyFileTableSlot :=
  commutes_get (fun _ => rfl) fun _ => commutes_pure _

@[grind ←] theorem installThreadFd_blind (g : Option Nat) : Blind junk (installThreadFd g) := by
  refine commutes_get (fun _ => rfl) fun s => ?_
  split
  · exact commutes_pure none
  · refine Commutes.bind ?_ fun _ => commutes_pure _
    exact commutes_modify fun _ => rfl

theorem searchPrefixZones_blind (name : Name) (zones : Nat → Nat) (left i : Nat) :
    Blind junk (searchPrefixZones name zones left i) := by
  induction left generalizing i with
  | zero => exact commutes_pure none
  | succ left ih =>
    refine (ideRead_blind _ _).bind fun buf => ?_
    cases searchPrefix name buf perSector 0 with
    | some e => exact commutes_pure _
    | none => exact ih (i + 1)

@[grind ←] theorem searchDirEntry_blind (d : Nat) (name : Name) : Blind junk (searchDirEntry d name) := by
  unfold searchDirEntry
  grind [searchPrefixZones_blind]

theorem createWith_blind {x : Nat → Inode} {ft : FileType} {name : Name}
    {tail : Nat → Nat → DirEntry → Nat → M (Option Nat)} (ht : ∀ p i e g, Blind junk (tail p i e g)) :
    Blind junk (createWith x ft name tail) := by
  refine (sysMalloc_blind _).bind fun ok => commutes_ite (fun _ => commutes_pure _) fun _ => ?_
  refine inodeBitmapAlloc_blind.bind fun r => ?_
  cases r with
  | none => exact commutes_pure none
  | some nr =>
    refine (sysMalloc_blind _).bind fun ok => commutes_ite (fun _ => by grind) fun _ => ?_
    refine (newInodeObject_blind _).bind fun p => (newDirEntry_blind _ _ _).bind fun e =>
      lockFetch_blind.bind fun _ => occupyFileTableSlot_blind.bind fun slot => ?_
    cases slot with
    | none => grind
    | some g => exact ht p nr e g

theorem rollBack_blind (g p i : Nat) : Blind junk (do
    setFile g clearedFile
    freeInode p
    setBit .inodeBitmap i false
    pure (none : Option Nat)) := by
  grind

@[grind ←] theorem fileCreate_blind (parent : Nat) (name : Name) (flag : Nat) :
    Blind junk (fileCreate parent name flag) := by
  rw [fileCreate_eq]
  refine createWith_blind fun p i e g => (setFile_blind _ _).bind fun _ => lockRelease_blind.bind fun _ =>
    (flushDirEntry_blind _ _).bind fun ok => commutes_ite (fun _ => ?_) fun _ => rollBack_blind g p i
  grind

@[grind ←] theorem packagefsCreate_blind (parent : Nat) (name : Name) (target : Nat) :
    Blind junk (packagefsCreate parent name target) := by
  rw [packagefsCreate_eq]
  refine createWith_blind fun p i e g => (fileAt_blind g).bind fun f => (setFile_blind _ _).bind fun _ =>
    lockRelease_blind.bind fun _ => (searchDirEntry_blind _ _).bind fun found => ?_
  cases found with
  | some e' => grind
  | none =>
    exact (flushDirEntry_blind _ _).bind fun ok => commutes_ite (fun _ => by grind) fun _ =>
      rollBack_blind g p i

theorem openWalk_blind (d : Nat) (names : List Name) : Blind junk (openWalk d names) := by
  induction names generalizing d with
  | nil => exact commutes_pure _
  | cons name names ih =>
    refine (searchFile_blind d name).bind fun r => ?_
    cases r with
    | none => grind
    | some nr => exact (dirClose_blind d).bind fun _ => (dirOpen_blind nr).bind fun next => ih next

@[grind ←] theorem openDir_blind (pathname : Name) : Blind junk (openDir pathname) := by
  refine (mustCopyPath_blind _).bind fun path => (pathPeel_blind path).bind fun r =>
    (pathDepth_blind _).bind fun depth => commutes_ite (fun _ => commutes_pure _) fun _ => ?_
  refine (mustMalloc_blind _).bind fun _ => (pathDirs_blind _ _).bind fun dirs => ?_
  cases dirs with
  | none => exact commutes_pure none
  | some dirs =>
    refine (openWalk_blind _ _).bind fun d => ?_
    cases d with
    | none => exact commutes_pure none
    | some d => exact commutes_pure _

end Family

/-! ## The parts of `sys_mkdir` -/

/-- Up to the local inode: the directory to work in and the new name, if all is well. -/
def mkdirTarget (pathname : Name) : M (Option (Nat × Name)) := do
  if !(← sysMalloc 1024) then pure none
  else
    match ← copyPath pathname with
    | none => pure none
    | some tmpPath =>
      let (parentPath, lastName) ← pathPeel tmpPath
      let pdir ←
        if parentPath = [slash] then pure (some rootDir)
        else do
          let (found, _) ← searchFileWithPathname parentPath
          match found with
          | none => pure none
          | some inodeNr => do
            let d ← dirOpen inodeNr
            pure (some d)
      match pdir with
      | none => pure none
      | some pdir =>
        match ← searchFile pdir lastName with
        | some _ => pure none
        | none => pure (some (pdir, lastName))

/-- The zone, the entry and the parent's inode are written: the number and the zone of the new inode. -/
def enterDir (pdir : Nat) (lastName : Name) : M (Option (Nat × Nat)) := do
  match ← inodeBitmapAlloc with
  | none =>
    dirClose pdir
    pure none
  | some inodeNr =>
    match ← zoneBitmapAlloc with
    | none =>
      setBit .inodeBitmap inodeNr false
      dirClose pdir
      pure none
    | some lba =>
      let s ← Prog.get
      let idx := u32Sub lba s.sb.sDataStartLba
      Prog.check (idx ≠ 0) .panic
      flushBitmap .zoneBitmap idx
      let q ← dirInode pdir
      let y ← inodeAt q
      ideWrite lba (dotsSector inodeNr y.iNum) 1
      let entry ← newDirEntry lastName inodeNr .directory
      if ← flushDirEntry pdir entry then
        let y ← inodeAt q
        flushInode y
        pure (some (inodeNr, lba))
      else
        setBit .zoneBitmap idx false
        setBit .inodeBitmap inodeNr false
        dirClose pdir
        pure none

/-- The inode is stored with the bitmap of the inodes, and the directory closed. -/
def storeDir (pdir : Nat) (x : Inode) : M Bool := do
  flushInode x
  flushBitmap .inodeBitmap x.iNum
  dirClose pdir
  pure true

section Parts
variable {junk : Nat → Store} {s : State}

theorem sysMkdir_eq (pathname : Name) : sysMkdir pathname = (do
    match ← mkdirTarget pathname with
    | none => pure false
    | some (pdir, lastName) => makeDir pdir lastName) := by
  unfold sysMkdir mkdirTarget
  rw [bind_assoc]
  refine congrArg _ (funext fun ok => ?_)
  cases ok with
  | false => rfl
  | true =>
    simp only [Bool.not_true, Bool.false_eq_true, if_false]
    rw [bind_assoc]
    refine congrArg _ (funext fun r => ?_)
    cases r with
    | none => rfl
    | some tmp =>
      simp only
      rw [bind_assoc]
      refine congrArg _ (funext fun r => ?_)
      have hsearch : ∀ d : Nat, (do
          match ← searchFile d r.2 with
          | some _ => pure false
          | none => makeDir d r.2 : M Bool) = ((do
          match ← searchFile d r.2 with
          | some _ => pure none
          | none => pure (some (d, r.2)) : M (Option (Nat × Name))) >>= fun
          | none => pure false
          | some (pdir, lastName) => makeDir pdir lastName) := by
        intro d
        rw [bind_assoc]
        refine congrArg _ (funext fun found => ?_)
        cases found <;> rfl
      by_cases hroot : r.1 = [slash]
      · rw [if_pos hroot, if_pos hroot]
        exact hsearch rootDir
      · rw [if_neg hroot, if_neg hroot, bind_assoc]
        refine congrArg _ (funext fun q => ?_)
        cases q.1 with
        | none => rfl
        | some nr =>
          simp only
          rw [bind_assoc]
          exact congrArg _ (funext fun d => hsearch d)

theorem makeDir_eq (pdir : Nat) (lastName : Name) : makeDir pdir lastName = (do
    let junk ← readJunk
    match ← enterDir pdir lastName with
    | none => pure false
    | some (inodeNr, lba) => storeDir pdir (newDirInode inodeNr lba junk)) := by
  unfold makeDir enterDir
  refine congrArg _ (funext fun junk => ?_)
  rw [bind_assoc]
  refine congrArg _ (funext fun r => ?_)
  cases r with
  | none =>
    simp only [bind_assoc]
    rfl
  | some nr =>
    simp only
    rw [bind_assoc]
    refine congrArg _ (funext fun r => ?_)
    cases r with
    | none =>
      simp only [bind_assoc]
      rfl
    | some lba =>
      simp only [bind_assoc]
      refine congrArg _ (funext fun s => congrArg _ (funext fun _ => congrArg _ (funext fun _ => ?_)))
      refine congrArg _ (funext fun q => congrArg _ (funext fun y => congrArg _ (funext fun _ => ?_)))
      refine congrArg _ (funext fun e => congrArg _ (funext fun ok => ?_))
      cases ok with
      | false =>
        simp only [Bool.false_eq_true, if_false, bind_assoc]
        rfl
      | true =>
        simp only [if_true, bind_assoc]
        rfl

theorem mkdirTarget_blind (pathname : Name) : Blind junk (mkdirTarget pathname) := by
  refine (sysMalloc_blind _).bind fun ok => commutes_ite (fun _ => commutes_pure _) fun _ =>
    (copyPath_blind _).bind fun r => ?_
  cases r with
  | none => exact commutes_pure none
  | some tmp =>
    refine (pathPeel_blind tmp).bind fun r => ?_
    have hsearch : ∀ d : Option Nat, Blind junk (match d with
        | none => pure none
        | some d => do
          match ← searchFile d r.2 with
          | some _ => pure none
          | none => pure (some (d, r.2)) : M (Option (Nat × Name))) := by
      intro d
      cases d with
      | none => exact commutes_pure none
      | some d =>
        refine (searchFile_blind d _).bind fun found => ?_
        cases found <;> exact commutes_pure _
    refine commutes_ite (fun _ => (commutes_pure _).bind hsearch) fun _ =>
      (searchFileWithPathname_blind _).bind fun q => ?_
    obtain ⟨found, dir⟩ := q
    cases found with
    | none => exact (commutes_pure none).bind hsearch
    | some nr => exact (dirOpen_blind nr).bind fun d => (commutes_pure _).bind hsearch

theorem enterDir_blind (pdir : Nat) (lastName : Name) : Blind junk (enterDir pdir lastName) := by
  refine inodeBitmapAlloc_blind.bind fun r => ?_
  cases r with
  | none => grind
  | some nr =>
    refine zoneBitmapAlloc_blind.bind fun r => ?_
    cases r with
    | none => grind
    | some lba =>
      refine commutes_get (fun _ => rfl) fun s => (commutes_check _ _).bind fun _ =>
        (flushBitmap_blind _ _).bind fun _ => (dirInode_blind _).bind fun q => (inodeAt_blind q).bind fun y =>
        (ideWrite_blind _ _ _).bind fun _ => (newDirEntry_blind _ _ _).bind fun e =>
        (flushDirEntry_blind _ _).bind fun ok => ?_
      exact commutes_ite (fun _ => by grind) fun _ => by grind

/-! ### What they leave of a mount -/

theorem OnlyEnv.slots {s t : State} (h : OnlyEnv s t) : SameSlots s t := by
  rw [h.eq]
  rfl

theorem mkdirTarget_table (pathname : Name) : Within SameSlots (mkdirTarget pathname) := by
  have henv : ∀ {α : Type} {m : M α}, Within OnlyEnv m → Within SameSlots m := fun h =>
    h.mono fun _ _ => OnlyEnv.slots
  refine (henv (sysMalloc_env _)).bind fun ok => within_ite (fun _ => within_pure _) fun _ =>
    (henv (copyPath_env _)).bind fun r => ?_
  cases r with
  | none => exact within_pure none
  | some tmp =>
    refine (henv (pathPeel_env tmp)).bind fun r => ?_
    have hsearch : ∀ d : Option Nat, Within SameSlots (match d with
        | none => pure none
        | some d => do
          match ← searchFile d r.2 with
          | some _ => pure none
          | none => pure (some (d, r.2)) : M (Option (Nat × Name))) := by
      intro d
      cases d with
      | none => exact within_pure none
      | some d =>
        refine (henv (searchFile_env d _)).bind fun found => ?_
        cases found <;> exact within_pure _
    refine within_ite (fun _ => (within_pure _).bind hsearch) fun _ =>
      (search_within (fun _ _ => OnlyEnv.slots) dirOpen_table _).bind fun q => ?_
    obtain ⟨found, dir⟩ := q
    cases found with
    | none => exact (within_pure none).bind hsearch
    | some nr => exact (dirOpen_table nr).bind fun d => (within_pure _).bind hsearch

theorem inodeBitmapAlloc_table : Within SameSlots inodeBitmapAlloc := by
  refine within_get.bind fun s => ?_
  split <;> grind

theorem enterDir_table (pdir : Nat) (lastName : Name) :
    Within SameSlots (enterDir pdir lastName) := by
  have hentry : ∀ nr, Within SameSlots (newDirEntry lastName nr .directory) := fun _ =>
    (within_check _ _).bind fun _ => within_pure _
  refine inodeBitmapAlloc_table.bind fun r => ?_
  cases r with
  | none => exact (dirClose_table _).bind fun _ => within_pure none
  | some nr =>
    refine zoneBitmapAlloc_table.bind fun r => ?_
    cases r with
    | none =>
      exact (setBit_table _ _ _).bind fun _ => (dirClose_table _).bind fun _ => within_pure none
    | some lba =>
      refine within_get.bind fun s => (within_check _ _).bind fun _ => ?_
      refine (flushBitmap_table _ _).bind fun _ => (dirInode_table _).bind fun q => ?_
      refine (inodeAt_table q).bind fun y => (ideWrite_table _ _ _).bind fun _ => ?_
      refine (hentry nr).bind fun e => (flushDirEntry_table _ _).bind fun ok => ?_
      refine within_ite (fun _ => by grind) fun _ => (setBit_table _ _ _).bind fun _ => ?_
      exact (setBit_table _ _ _).bind fun _ => (dirClose_table _).bind fun _ => within_pure none

end Parts

/-! ## Storing the inode -/

section Store
variable {v t : State} {x : Inode} {pdir nr lba : Nat} {d : Store}

theorem dirClose_setDisk (pdir : Nat) (d : Store) :
    Commutes (fun s : State => s.setDisk d) (dirClose pdir) := by
  have hinode : ∀ p, Commutes (fun s : State => s.setDisk d) (inodeAt p) := fun p =>
    commutes_get (fun _ => rfl) fun _ => commutes_need _ _
  have hdir : Commutes (fun s : State => s.setDisk d) (dirInode pdir) :=
    Commutes.bind (commutes_get (fun _ => rfl) fun _ => commutes_need _ _) fun x => commutes_need _ _
  have hclose : ∀ p, Commutes (fun s : State => s.setDisk d) (inodeClose p) := by
    refine fun p => (hinode p).bind fun x => commutes_ite (fun _ => ?_) fun _ => ?_
    · refine commutes_get (fun _ => rfl) fun s => (commutes_check _ _).bind fun _ => ?_
      exact Commutes.bind (commutes_modify fun _ => rfl) fun _ => commutes_modify fun _ => rfl
    · exact commutes_modify fun _ => rfl
  refine commutes_ite (fun _ => commutes_pure ()) fun _ => hdir.bind fun p => (hclose p).bind fun _ => ?_
  exact commutes_modify fun _ => rfl

/-- The disk with the inode and the sector of the bitmap. -/
def storedDisk (v : State) (x : Inode) : Store :=
  flushedMap (v.setDisk (patch v.disk (inodeAddr v.sb x.iNum) 100 x.forDisk.toBytes)) .inodeBitmap x.iNum

theorem storeDir_panic (hn : ¬ x.iNum < v.sb.sNinodes) : storeDir pdir x v = .error .panic := by
  have hlocale : localeInode x.iNum v = .error .panic := by
    unfold localeInode
    rw [bind_ok (get_apply v)]
    refine bind_error ?_
    rw [check, if_neg hn]
    rfl
  exact bind_error (bind_error hlocale)

theorem flushBitmap_run {t : BitmapType} (hl : Layout v.sb) (hi : nr < 4096 * v.sb.mapSz t) :
    flushBitmap t nr v = .ok ((), v.setDisk (flushedMap v t nr)) :=
  run_eq_of_wp ((wp_flushBitmap hl hi).mpr ⟨rfl, rfl⟩)

theorem storeDir_run (hl : Layout v.sb) (hn : x.iNum < v.sb.sNinodes)
    (hmap : x.iNum < 4096 * v.sb.sImapSz) :
    storeDir pdir x v = match dirClose pdir v with
      | .ok (_, t) => .ok (true, t.setDisk (storedDisk v x))
      | .error e => .error e := by
  have hinode : flushInode x v =
      .ok ((), v.setDisk (patch v.disk (inodeAddr v.sb x.iNum) 100 x.forDisk.toBytes)) :=
    run_eq_of_wp ((wp_flushInode hl hn).mpr ⟨rfl, rfl⟩)
  have hbitmap : flushBitmap .inodeBitmap x.iNum
      (v.setDisk (patch v.disk (inodeAddr v.sb x.iNum) 100 x.forDisk.toBytes)) =
        .ok ((), v.setDisk (storedDisk v x)) :=
    flushBitmap_run (t := .inodeBitmap) hl hmap
  unfold storeDir
  rw [bind_ok hinode, bind_ok hbitmap, bind_apply]
  have hclose := dirClose_setDisk pdir (storedDisk v x) v
  simp only at hclose
  rw [hclose]
  cases dirClose pdir v <;> rfl

/-- The inode reads back. -/
theorem diskInode_stored (hl : Layout v.sb) (hx : x.InWidth) (hmap : x.iNum < 4096 * v.sb.sImapSz) :
    diskInode v.sb (storedDisk v x) x.iNum = x.forDisk := by
  have hbelow := hl.map_lt .inodeBitmap
  have hdiv : x.iNum / 4096 < v.sb.sImapSz := by omega
  rw [← Inode.ofBytes_toBytes hx.forDisk]
  refine Inode.ofBytes_congr fun i hi => ?_
  unfold storedDisk flushedMap
  have hout : inodeAddr v.sb x.iNum + i ≥ 512 * (v.sb.sImapLba + x.iNum / 4096) + 512 := by
    simp only [SuperBlock.mapLba, SuperBlock.mapSz] at hbelow
    unfold inodeAddr
    omega
  refine (patch_out (.inr hout)).trans ?_
  change patch v.disk (inodeAddr v.sb x.iNum) 100 x.forDisk.toBytes (inodeAddr v.sb x.iNum + i) = _
  rw [patch_in (by omega), Nat.add_sub_cancel_left]

theorem newDirInode_inWidth (junk : Store) (hnr : nr < 2 ^ 32) (hlba : lba < 2 ^ 32) :
    (newDirInode nr lba junk).InWidth := by
  have hjunk := Inode.inWidth_ofBytes junk
  refine { hjunk with
    iNum := hnr
    iMode := (by decide : FileType.directory.mode < 65536)
    iSize := (by decide : 48 < 2 ^ 32)
    iCount := (by decide : 0 < 65536)
    iLock := (by decide : 0 < 256)
    iZones := fun k => ?_
    zones_len := fun k hk => ?_ }
  · change (if k = 0 then lba else if k < 13 then 0 else (Inode.ofBytes junk).iZones k) < 2 ^ 32
    have := hjunk.iZones k
    split_ifs <;> omega
  · change (if k = 0 then lba else if k < 13 then 0 else (Inode.ofBytes junk).iZones k) = 0
    rw [if_neg (by omega), if_neg (by omega)]
    exact hjunk.zones_len k hk

end Store

/-! ## Two runs -/

/-- The same result, the same disk and the same inodes, or the same stop. -/
def SameEffect {α : Type} : Except Stop (α × State) → Except Stop (α × State) → Prop
  | .ok (a, t), .ok (a', t') =>
    a = a' ∧ t.disk = t'.disk ∧ t.inodes = t'.inodes ∧ t.openInodes = t'.openInodes
  | .error e, .error e' => e = e'
  | _, _ => False

/-- The runs of `sys_mkdir` from states that differ in what was in memory before. -/
def MkdirAlike (s : State) (pathname : Name) : Prop :=
  ∀ junk, SameEffect (sysMkdir pathname s) (sysMkdir pathname (s.withJunk junk))

/-- The runs of `sys_open`. The byte before an empty path and the address of a new server are no memory
of the new inode or of a path, and are the same in both runs. -/
structure OpenAlike (s : State) (pathname : Name) (flags : Nat) : Prop where
  runs : ∀ junk, (pathname = [] ∨ pathname.take 8 = devPkg → junk 0 = s.env.junk 0) →
    SameEffect (sysOpen pathname flags s) (sysOpen pathname flags (s.withJunk junk))

def CreatedAlike (s : State) (pathname : Name) (flags : Nat) : Prop :=
  MkdirAlike s pathname ∧ (hasFlag flags oCreat = true → OpenAlike s pathname flags)

/-- `sys_mkdir` comes to store a new inode that lies in the table, and can close the directory. -/
def StoresDir (s : State) (pathname : Name) : Prop :=
  ∃ pdir lastName u nr lba v t, mkdirTarget pathname s = .ok (some (pdir, lastName), u) ∧
    enterDir pdir lastName u = .ok (some (nr, lba), v) ∧ nr < s.sb.sNinodes ∧
    dirClose pdir v = .ok ((), t)

section Effect
variable {α β : Type} {junk : Nat → Store} {s t : State} {a : α} {m : M α}

theorem SameEffect.afterwards (r : Except Stop (α × State)) :
    SameEffect r (Prog.afterwards (overJunk junk) r) := by
  cases r with
  | error e => exact rfl
  | ok r => exact ⟨rfl, rfl, rfl, rfl⟩

theorem junk_eq (h : ∀ junk, Blind junk m) (hrun : m s = .ok (a, t)) : t.env.junk = s.env.junk := by
  have hsame := h s.env.junk s
  have hself : overJunk s.env.junk s = s := rfl
  rw [hself, hrun] at hsame
  have ht : t = overJunk s.env.junk t := congrArg Prod.snd (Except.ok.inj hsame)
  rw [ht]
  rfl

/-- Of the unwritten blocks at most the first is read, and only if `c`. -/
def ReadsFirst (c : Prop) (m : M α) : Prop := ∀ s junk, (c → junk 0 = s.env.junk 0) →
  ∃ junk', m (overJunk junk s) = Prog.afterwards (overJunk junk') (m s)

variable {c : Prop}

theorem ReadsFirst.of_blind (h : ∀ junk, Blind junk m) : ReadsFirst c m :=
  fun s junk _ => ⟨junk, h junk s⟩

theorem ReadsFirst.read {k : Store → M α} (hc : c) (hk : ∀ b, ReadsFirst False (k b)) :
    ReadsFirst c (readJunk >>= k) := by
  intro s junk h0
  have hrun : (readJunk >>= k) (overJunk junk s) =
      k (junk 0) (overJunk (fun i => junk (i + 1)) s.nextJunk) := rfl
  rw [hrun, h0 hc]
  exact hk _ _ _ False.elim

theorem ReadsFirst.after {k : α → M β} (h : ∀ junk, Blind junk m) (hk : ∀ a, ReadsFirst c (k a)) :
    ReadsFirst c (m >>= k) := by
  intro s junk h0
  rw [bind_apply, bind_apply, h junk s]
  cases hm : m s with
  | error e => exact ⟨junk, rfl⟩
  | ok r => exact hk r.1 r.2 junk fun hc => (h0 hc).trans (by rw [junk_eq h hm])

theorem ReadsFirst.sameEffect (h : ReadsFirst c m) (h0 : c → junk 0 = s.env.junk 0) :
    SameEffect (m s) (m (s.withJunk junk)) := by
  obtain ⟨junk', heq⟩ := h s junk h0
  have hrun : m (s.withJunk junk) = m (overJunk junk s) := rfl
  rw [hrun, heq]
  exact .afterwards _

end Effect

/-! ### `sys_open` -/

section Open
variable {c : Prop} {pathname : Name} {flags : Nat}

theorem createServer_reads {α : Type} {k : Nat → M α} (name : Name) (hc : c)
    (hk : ∀ n, ReadsFirst False (k n)) : ReadsFirst c (createServer name >>= k) := by
  unfold createServer
  rw [bind_assoc]
  refine .after (fun _ => mustMalloc_blind _) fun _ => ?_
  rw [bind_assoc]
  refine .after (fun _ => mustMalloc_blind _) fun _ => ?_
  rw [bind_assoc]
  exact .read hc fun b => hk _

theorem openNew_reads (dir : Nat) (lastName : Name) (hc : pathname.take 8 = devPkg → c) :
    ReadsFirst c (openNew pathname dir lastName flags) := by
  unfold openNew
  by_cases hpkg : pathname.take 8 = devPkg
  · rw [if_pos hpkg]
    unfold openPkgServer
    rw [bind_assoc]
    refine createServer_reads _ (hc hpkg) fun server => .of_blind fun junk => ?_
    grind
  · rw [if_neg hpkg]
    refine .of_blind fun junk => ?_
    grind

/-- The rest of `sys_open` once the last character is read. -/
theorem openRest_reads (b : Byte) (ho : hasFlag flags oCreat = true)
    (hc : pathname.take 8 = devPkg → c) : ReadsFirst c (do
      if b = slash then pure none
      else
        match ← openDir pathname with
        | none => pure none
        | some (dir, lastName) =>
          match ← searchFile dir lastName with
          | none =>
            if hasFlag flags oCreat then openNew pathname dir lastName flags
            else
              dirClose dir
              pure none
          | some inodeNr =>
            if hasFlag flags oCreat then
              dirClose dir
              pure none
            else openExisting inodeNr flags) := by
  by_cases hb : b = slash
  · rw [if_pos hb]
    exact .of_blind fun _ => commutes_pure none
  rw [if_neg hb]
  refine .after (fun _ => openDir_blind pathname) fun r => ?_
  cases r with
  | none => exact .of_blind fun _ => commutes_pure none
  | some r =>
    refine .after (fun _ => searchFile_blind r.1 r.2) fun found => ?_
    cases found with
    | none =>
      simp only [ho, if_true]
      exact openNew_reads r.1 r.2 hc
    | some nr =>
      simp only [ho, if_true]
      exact .of_blind fun _ => (dirClose_blind _).bind fun _ => commutes_pure none

theorem sysOpen_reads (ho : hasFlag flags oCreat = true) :
    ReadsFirst (pathname = [] ∨ pathname.take 8 = devPkg) (sysOpen pathname flags) := by
  unfold sysOpen lastChar
  cases hlast : pathname.getLast? with
  | none =>
    have hnil : pathname = [] := List.getLast?_eq_none_iff.mp hlast
    simp only
    rw [bind_assoc]
    refine .read (.inl hnil) fun before => openRest_reads (before 0) ho fun hpkg => ?_
    rw [hnil] at hpkg
    cases hpkg
  | some b => exact openRest_reads b ho .inr

end Open

/-! ### `sys_mkdir` -/

section Mkdir
variable {s t u v : State} {pathname lastName : Name} {pdir nr lba : Nat}

theorem inodeBitmapAlloc_lt (h : inodeBitmapAlloc u = .ok (some nr, v)) :
    nr < u.inodeBitmap.mapBytesLength * 8 := by
  unfold inodeBitmapAlloc at h
  rw [bind_ok (get_apply u)] at h
  cases hfind : u.inodeBitmap.findBlock 1 with
  | none =>
    rw [hfind] at h
    cases h
  | some i =>
    rw [hfind] at h
    obtain ⟨_, _, _, hret⟩ := bind_eq_ok.mp h
    cases hret
    exact (Bitmap.findBlock_one hfind).1

theorem zoneBitmapAlloc_lt : Returns (fun r => ∀ lba, r = some lba → lba < 2 ^ 32) zoneBitmapAlloc := by
  refine returns_bind fun s => ?_
  cases s.zoneBitmap.findBlock 1 with
  | none => exact returns_pure fun _ h => nomatch h
  | some i =>
    refine returns_bind fun _ => returns_pure fun lba h => ?_
    unfold orMinusOne at h
    split_ifs at h with hmax
    cases h
    exact Nat.mod_lt _ (by decide)

theorem enterDir_lt (h : enterDir pdir lastName u = .ok (some (nr, lba), v)) :
    nr < u.inodeBitmap.mapBytesLength * 8 ∧ lba < 2 ^ 32 := by
  obtain ⟨r, u₁, hr, h⟩ := bind_eq_ok.mp h
  cases r with
  | none => exact nomatch returns_bind (fun _ => returns_pure (P := (· = none)) rfl) _ _ _ h
  | some i =>
    obtain ⟨r, u₂, hz, h⟩ := bind_eq_ok.mp h
    cases r with
    | none =>
      exact nomatch returns_bind (fun _ => returns_bind fun _ => returns_pure (P := (· = none)) rfl)
        _ _ _ h
    | some z =>
      have hret : some (nr, lba) = none ∨ some (nr, lba) = some (i, z) := by
        refine returns_bind (P := fun r => r = none ∨ r = some (i, z)) (fun s => ?_) _ _ _ h
        refine returns_bind fun _ => returns_bind fun _ => returns_bind fun q => returns_bind fun y =>
          returns_bind fun _ => returns_bind fun e => returns_bind fun ok => returns_ite (fun _ => ?_)
            fun _ => ?_
        · exact returns_bind fun y => returns_bind fun _ => returns_pure (.inr rfl)
        · exact returns_bind fun _ => returns_bind fun _ => returns_bind fun _ => returns_pure (.inl rfl)
      rcases hret with hret | hret <;> cases hret
      exact ⟨inodeBitmapAlloc_lt hr, zoneBitmapAlloc_lt _ _ _ hz _ rfl⟩

theorem sysMkdir_makes (ht : mkdirTarget pathname s = .ok (some (pdir, lastName), u))
    (junk : Nat → Store) :
    sysMkdir pathname (overJunk junk s) = makeDir pdir lastName (overJunk junk u) := by
  have htarget : mkdirTarget pathname (overJunk junk s) =
      .ok (some (pdir, lastName), overJunk junk u) := by
    rw [mkdirTarget_blind pathname s, ht]
    rfl
  rw [sysMkdir_eq]
  exact bind_ok htarget

theorem makeDir_enters (pdir : Nat) (lastName : Name) (junk : Nat → Store) (u : State) :
    makeDir pdir lastName (overJunk junk u) = (do
      match ← enterDir pdir lastName with
      | none => pure false
      | some (inodeNr, lba) => storeDir pdir (newDirInode inodeNr lba (junk 0)) : M Bool)
        (overJunk (fun i => junk (i + 1)) u) := by
  have hread : readJunk (overJunk junk u) = .ok (junk 0, overJunk (fun i => junk (i + 1)) u) := rfl
  rw [makeDir_eq, bind_ok hread]

/-- The new inode is stored with the block that the local variable took. -/
theorem makeDir_stores (he : enterDir pdir lastName u = .ok (some (nr, lba), v))
    (junk : Nat → Store) :
    makeDir pdir lastName (overJunk junk u) =
      storeDir pdir (newDirInode nr lba (junk 0)) (overJunk (fun i => junk (i + 1)) v) := by
  have henter : enterDir pdir lastName (overJunk (fun i => junk (i + 1)) u) =
      .ok (some (nr, lba), overJunk (fun i => junk (i + 1)) v) := by
    rw [enterDir_blind pdir lastName u, he]
    rfl
  rw [makeDir_enters]
  exact bind_ok henter

/-- What is known of the number and the zone of the new inode. -/
theorem stored_bounds (hm : s.inodeBitmap.mapBytesLength = 512 * s.sb.sImapSz)
    (ht : mkdirTarget pathname s = .ok (some (pdir, lastName), u))
    (he : enterDir pdir lastName u = .ok (some (nr, lba), v)) :
    v.sb = s.sb ∧ nr < 4096 * v.sb.sImapSz ∧ lba < 2 ^ 32 := by
  have hu : u.mounted = s.mounted := congrArg Prod.fst (mkdirTarget_table pathname _ _ _ ht)
  have hv : v.mounted = u.mounted := congrArg Prod.fst (enterDir_table pdir lastName _ _ _ he)
  have hsb : v.sb = s.sb := congrArg Prod.fst (hv.trans hu)
  have hlen : u.inodeBitmap.mapBytesLength = s.inodeBitmap.mapBytesLength := congrArg Prod.snd hu
  obtain ⟨hnr, hlba⟩ := enterDir_lt he
  rw [hlen, hm] at hnr
  exact ⟨hsb, by rw [hsb]; omega, hlba⟩

/-- Up to the inode that is stored, nothing old is seen. -/
theorem makeDir_alike (hstop : ∀ nr lba v, enterDir pdir lastName u = .ok (some (nr, lba), v) →
      ∃ e, ∀ x junk, x.iNum = nr → storeDir pdir x (overJunk junk v) = .error e)
    (junk junk' : Nat → Store) :
    SameEffect (makeDir pdir lastName (overJunk junk u)) (makeDir pdir lastName (overJunk junk' u)) := by
  cases he : enterDir pdir lastName u with
  | error e =>
    have hrun : ∀ junk, makeDir pdir lastName (overJunk junk u) = .error e := by
      intro junk
      rw [makeDir_enters]
      refine bind_error ?_
      rw [enterDir_blind pdir lastName u, he]
      rfl
    rw [hrun, hrun]
    exact rfl
  | ok r =>
    obtain ⟨entered, v⟩ := r
    cases entered with
    | none =>
      have hrun : ∀ junk, makeDir pdir lastName (overJunk junk u) =
          .ok (false, overJunk (fun i => junk (i + 1)) v) := by
        intro junk
        rw [makeDir_enters]
        refine bind_ok (a := none) ?_
        rw [enterDir_blind pdir lastName u, he]
        rfl
      rw [hrun, hrun]
      exact ⟨rfl, rfl, rfl, rfl⟩
    | some entered =>
      obtain ⟨nr, lba⟩ := entered
      obtain ⟨e, hrun⟩ := hstop nr lba v he
      rw [makeDir_stores he, makeDir_stores he, hrun _ _ rfl, hrun _ _ rfl]
      exact rfl

theorem sysMkdir_alike (hl : Layout s.sb) (hm : s.inodeBitmap.mapBytesLength = 512 * s.sb.sImapSz)
    (h : ¬ StoresDir s pathname) (junk : Nat → Store) :
    SameEffect (sysMkdir pathname s) (sysMkdir pathname (s.withJunk junk)) := by
  change SameEffect (sysMkdir pathname (overJunk s.env.junk s)) (sysMkdir pathname (overJunk junk s))
  cases ht : mkdirTarget pathname s with
  | error e =>
    have hrun : ∀ junk, sysMkdir pathname (overJunk junk s) = .error e := by
      intro junk
      rw [sysMkdir_eq]
      refine bind_error ?_
      rw [mkdirTarget_blind pathname s, ht]
      rfl
    rw [hrun, hrun]
    exact rfl
  | ok r =>
    obtain ⟨target, u⟩ := r
    cases target with
    | none =>
      have hrun : ∀ junk, sysMkdir pathname (overJunk junk s) = .ok (false, overJunk junk u) := by
        intro junk
        rw [sysMkdir_eq]
        refine bind_ok (a := none) ?_
        rw [mkdirTarget_blind pathname s, ht]
        rfl
      rw [hrun, hrun]
      exact ⟨rfl, rfl, rfl, rfl⟩
    | some target =>
      obtain ⟨pdir, lastName⟩ := target
      rw [sysMkdir_makes ht, sysMkdir_makes ht]
      refine makeDir_alike (fun nr lba v he => ?_) _ _
      obtain ⟨hsb, hmap, -⟩ := stored_bounds hm ht he
      by_cases hnr : nr < s.sb.sNinodes
      · cases hclose : dirClose pdir v with
        | ok r => exact absurd ⟨pdir, lastName, u, nr, lba, v, r.2, ht, he, hnr, hclose⟩ h
        | error e =>
          refine ⟨e, fun x junk hx => ?_⟩
          have hv : (overJunk junk v).sb = s.sb := hsb
          rw [storeDir_run (hv ▸ hl) (by rw [hx, hv]; exact hnr) (by rw [hx]; exact hmap),
            dirClose_blind pdir v, hclose]
          rfl
      · refine ⟨.panic, fun x junk hx => storeDir_panic ?_⟩
        rw [hx]
        exact hsb ▸ hnr

/-- The same memory with another count of links in the first block. -/
def otherLinks (junk : Nat → Store) (i : Nat) : Store :=
  if i = 0 then Function.update (junk 0) 17 (junk 0 17 + 1) else junk i

theorem otherLinks_nlinks (nr lba : Nat) (junk : Nat → Store) :
    (newDirInode nr lba (otherLinks junk 0)).iNlinks ≠ (newDirInode nr lba (junk 0)).iNlinks := by
  change byteAt (otherLinks junk 0) 17 ≠ byteAt (junk 0) 17
  unfold otherLinks byteAt
  rw [if_pos rfl, Function.update_self]
  bv_omega

theorem storesDir_run (hl : Layout s.sb) (hm : s.inodeBitmap.mapBytesLength = 512 * s.sb.sImapSz)
    (ht : mkdirTarget pathname s = .ok (some (pdir, lastName), u))
    (he : enterDir pdir lastName u = .ok (some (nr, lba), v)) (hnr : nr < s.sb.sNinodes)
    (hclose : dirClose pdir v = .ok ((), t)) (junk : Nat → Store) :
    sysMkdir pathname (overJunk junk s) = .ok (true,
      (overJunk (fun i => junk (i + 1)) t).setDisk (storedDisk v (newDirInode nr lba (junk 0)))) := by
  obtain ⟨hsb, hmap, -⟩ := stored_bounds hm ht he
  have hv : (overJunk (fun i => junk (i + 1)) v).sb = s.sb := hsb
  rw [sysMkdir_makes ht, makeDir_stores he, storeDir_run (hv ▸ hl) (hv ▸ hnr) hmap,
    dirClose_blind pdir v, hclose]
  rfl

/-- The count of links on the disk is the one that the stack held. -/
theorem storesDir_differs (hl : Layout s.sb)
    (hm : s.inodeBitmap.mapBytesLength = 512 * s.sb.sImapSz) (h : StoresDir s pathname) :
    ¬ SameEffect (sysMkdir pathname s) (sysMkdir pathname (s.withJunk (otherLinks s.env.junk))) := by
  obtain ⟨pdir, lastName, u, nr, lba, v, t, ht, he, hnr, hclose⟩ := h
  obtain ⟨hsb, hmap, hlba⟩ := stored_bounds hm ht he
  change ¬ SameEffect (sysMkdir pathname (overJunk s.env.junk s))
    (sysMkdir pathname (overJunk (otherLinks s.env.junk) s))
  rw [storesDir_run hl hm ht he hnr hclose, storesDir_run hl hm ht he hnr hclose]
  rintro ⟨-, hdisk, -, -⟩
  have hnr32 : nr < 2 ^ 32 := by
    have := hl.inodes
    have := hl.data
    have := hl.disk
    unfold maxLba at *
    omega
  have hread : ∀ b, diskInode v.sb (storedDisk v (newDirInode nr lba b)) nr =
      (newDirInode nr lba b).forDisk := fun b =>
    diskInode_stored (hsb ▸ hl) (newDirInode_inWidth b hnr32 hlba) hmap
  have hlinks := congrArg (fun d => (diskInode v.sb d nr).iNlinks) hdisk
  simp only [hread] at hlinks
  exact otherLinks_nlinks nr lba s.env.junk hlinks.symm

theorem StoresDir.returns (hl : Layout s.sb)
    (hm : s.inodeBitmap.mapBytesLength = 512 * s.sb.sImapSz) (h : StoresDir s pathname) :
    ∃ t, sysMkdir pathname s = .ok (true, t) := by
  obtain ⟨pdir, lastName, u, nr, lba, v, t, ht, he, hnr, hclose⟩ := h
  exact ⟨_, storesDir_run hl hm ht he hnr hclose s.env.junk⟩

/-- Only the way over the stored inode ends with success. -/
theorem storesDir_of_run (hl : Layout s.sb)
    (hm : s.inodeBitmap.mapBytesLength = 512 * s.sb.sImapSz)
    (hrun : sysMkdir pathname s = .ok (true, t)) : StoresDir s pathname := by
  rw [sysMkdir_eq] at hrun
  obtain ⟨target, u, ht, hrun⟩ := bind_eq_ok.mp hrun
  cases target with
  | none => cases hrun
  | some target =>
    obtain ⟨pdir, lastName⟩ := target
    change makeDir pdir lastName (overJunk u.env.junk u) = _ at hrun
    cases he : enterDir pdir lastName u with
    | error e =>
      rw [makeDir_enters, bind_error] at hrun
      · cases hrun
      · rw [enterDir_blind pdir lastName u, he]
        rfl
    | ok r =>
      obtain ⟨entered, v⟩ := r
      cases entered with
      | none =>
        rw [makeDir_enters, bind_ok (a := none)] at hrun
        · cases hrun
        · rw [enterDir_blind pdir lastName u, he]
          rfl
      | some entered =>
        obtain ⟨nr, lba⟩ := entered
        obtain ⟨hsb, hmap, -⟩ := stored_bounds hm ht he
        rw [makeDir_stores he] at hrun
        by_cases hnr : nr < s.sb.sNinodes
        · rw [storeDir_run (hsb ▸ hl) (hsb ▸ hnr) hmap, dirClose_blind pdir v] at hrun
          cases hclose : dirClose pdir v with
          | ok r => exact ⟨pdir, lastName, u, nr, lba, v, r.2, ht, he, hnr, hclose⟩
          | error e =>
            rw [hclose] at hrun
            cases hrun
        · rw [storeDir_panic (hsb ▸ hnr)] at hrun
          cases hrun

end Mkdir

/-- Every `sys_mkdir` that makes a directory leaves an inode that depends on the stack, and no
`sys_open` does. -/
theorem created_alike {s : State} {pathname : Name} {flags : Nat} (hl : Layout s.sb)
    (hm : s.inodeBitmap.mapBytesLength = 512 * s.sb.sImapSz) :
    (∀ t, sysMkdir pathname s = .ok (true, t) → ¬ MkdirAlike s pathname) ∧
    ((∀ t, sysMkdir pathname s ≠ .ok (true, t)) → MkdirAlike s pathname) ∧
    (hasFlag flags oCreat = true → OpenAlike s pathname flags) := by
  refine ⟨fun t hrun h => ?_, fun hnone => ?_, fun ho => ⟨fun _ h0 => (sysOpen_reads ho).sameEffect h0⟩⟩
  · exact storesDir_differs hl hm (storesDir_of_run hl hm hrun) (h _)
  · refine sysMkdir_alike hl hm fun hstores => ?_
    obtain ⟨t, hrun⟩ := hstores.returns hl hm
    exact hnone t hrun

/-- `mkdir` of a new name and of a name that is there, and `open` of a new name. -/
theorem created_alike_root : ¬ MkdirAlike rootWithChild [slash, 98#8] ∧
    MkdirAlike rootWithChild [slash, 97#8, slash] ∧ OpenAlike rootWithChild [slash, 98#8] oCreat := by
  have hnew : (sysMkdir [slash, 98#8] rootWithChild).map Prod.fst = .ok true := by
    decide +kernel
  have hthere : (sysMkdir [slash, 97#8, slash] rootWithChild).map Prod.fst = .ok false := by
    decide +kernel
  obtain ⟨t, hrun⟩ := ok_of_result hnew
  obtain ⟨u, hrun'⟩ := ok_of_result hthere
  have hcreat : hasFlag oCreat oCreat = true := by decide
  obtain ⟨hmakes, -, hopens⟩ :=
    @created_alike rootWithChild [slash, 98#8] oCreat layout_small rfl
  obtain ⟨-, hrest, -⟩ := @created_alike rootWithChild [slash, 97#8, slash] oCreat layout_small rfl
  have hopen := hopens hcreat
  have halike : MkdirAlike rootWithChild [slash, 97#8, slash] := by
    apply hrest
    intro v hv
    rw [hrun'] at hv
    cases hv
  exact ⟨hmakes t hrun, halike, hopen⟩

theorem MkdirAlike.disk {s t t' : State} {pathname : Name} {a a' : Bool} {junk : Nat → Store}
    (h : MkdirAlike s pathname) (hs : sysMkdir pathname s = .ok (a, t))
    (hj : sysMkdir pathname (s.withJunk junk) = .ok (a', t')) : t.disk = t'.disk := by
  have hsame := h junk
  rw [hs, hj] at hsame
  exact hsame.2.1

/-- `mkdir` of `/b` gives inode 16 the count of links that lay on the stack. -/
theorem links_from_stack : ¬ CreatedAlike rootWithChild [slash, 98#8] 0 ∧
    ∃ t t', sysMkdir [slash, 98#8] rootWithChild = .ok (true, t) ∧
      sysMkdir [slash, 98#8] (rootWithChild.withJunk fun _ _ => 5#8) = .ok (true, t') ∧
      (diskInode rootWithChild.sb t.disk 16).iNlinks = 0 ∧
      (diskInode rootWithChild.sb t'.disk 16).iNlinks = 5 := by
  have hfirst : (sysMkdir [slash, 98#8] rootWithChild).map
      (fun r => (r.1, (diskInode rootWithChild.sb r.2.disk 16).iNlinks)) = .ok (true, 0) := by
    decide +kernel
  have hsecond : (sysMkdir [slash, 98#8] (rootWithChild.withJunk fun _ _ => 5#8)).map
      (fun r => (r.1, (diskInode rootWithChild.sb r.2.disk 16).iNlinks)) = .ok (true, 5) := by
    decide +kernel
  obtain ⟨a, t, hrun, hlinks⟩ := ok_of_map hfirst
  obtain ⟨a', t', hrun', hlinks'⟩ := ok_of_map hsecond
  simp only [Prod.mk.injEq] at hlinks hlinks'
  rw [hlinks.1] at hrun
  rw [hlinks'.1] at hrun'
  refine ⟨fun h => ?_, t, t', hrun, hrun', hlinks.2, hlinks'.2⟩
  obtain ⟨hmkdir, -⟩ := h
  have hdisk := hmkdir.disk hrun hrun'
  have h05 : 0 = 5 := by rw [← hlinks.2, hdisk, hlinks'.2]
  exact absurd h05 (by decide)

end Frog.Fs
