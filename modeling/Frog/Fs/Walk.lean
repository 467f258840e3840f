import Frog.Fs.DirState
import Frog.Fs.Syscalls
import Frog.Lib.Effect

/-!
# What a walk leaves open

`inode_open` takes an inode that is in memory as it is and counts nothing, so a walk along a path
changes the open inodes exactly where it meets one that is not in memory yet.
-/

namespace Frog.Fs

set_option autoImplicit false
open Bytes Prog

/-! ## The parts of the state -/

/-- All but the memory and the bytes that the outside supplies. -/
def State.sansEnv (s : State) : State := { s with env := State.boot.env }

/-- The same without the open directories. -/
def State.files (s : State) : State := { s.sansEnv with dirs := State.boot.dirs, next := 0 }

/-- The disk with the tree on it, both bitmaps, and the open inodes with their counts and locks. -/
def State.tree (s : State) : Store × Bitmap × Bitmap × List (Option Inode) :=
  (s.disk, s.zoneBitmap, s.inodeBitmap, s.openInodes.map s.inodes)

/-- Nothing is stored where the next objects come to lie. -/
structure State.Fresh (s : State) : Prop where
  dirs : ∀ d, s.next ≤ d → s.dirs d = none
  openInodes : ∀ p ∈ s.openInodes, p < s.next

abbrev OnlyEnv : State → State → Prop := SamePart State.sansEnv

abbrev SameFiles : State → State → Prop := SamePart State.files

abbrev SameTree : State → State → Prop := SamePart State.tree

section Parts
variable {s t : State}

theorem OnlyEnv.files (h : OnlyEnv s t) : SameFiles s t := by
  have he : t.sansEnv = s.sansEnv := h
  unfold SameFiles SamePart State.files
  rw [he]

theorem OnlyEnv.eq (h : OnlyEnv s t) : t = { s with env := t.env } := by
  have he : t.sansEnv = s.sansEnv := h
  calc t = { t.sansEnv with env := t.env } := rfl
    _ = { s.sansEnv with env := t.env } := by rw [he]
    _ = { s with env := t.env } := rfl

theorem SameFiles.inodes (h : SameFiles s t) : t.inodes = s.inodes := by
  have he : t.files = s.files := h
  show t.files.inodes = s.files.inodes
  rw [he]

theorem SameFiles.openInodes (h : SameFiles s t) : t.openInodes = s.openInodes := by
  have he : t.files = s.files := h
  show t.files.openInodes = s.files.openInodes
  rw [he]

theorem SameFiles.disk (h : SameFiles s t) : t.disk = s.disk := by
  have he : t.files = s.files := h
  show t.files.disk = s.files.disk
  rw [he]

theorem SameFiles.tree (h : SameFiles s t) : SameTree s t := by
  have he : t.files = s.files := h
  show t.files.tree = s.files.tree
  rw [he]

theorem OnlyEnv.dirs (h : OnlyEnv s t) : t.dirs = s.dirs := by
  have he : t.sansEnv = s.sansEnv := h
  show t.sansEnv.dirs = s.sansEnv.dirs
  rw [he]

end Parts

/-! ## Looking names up -/

section Lookup

@[grind ←] theorem sysMalloc_env (n : Nat) : Within OnlyEnv (sysMalloc n) := by
  intro s a t h
  unfold sysMalloc at h
  split at h <;> cases h <;> rfl

@[grind ←] theorem mustMalloc_env (n : Nat) : Within OnlyEnv (mustMalloc n) := by
  unfold mustMalloc
  grind

@[grind ←] theorem readTail_env : Within OnlyEnv readTail := by
  intro s a t h
  cases h
  rfl

@[grind ←] theorem copyPath_env (path : Name) : Within OnlyEnv (copyPath path) := by
  unfold copyPath
  refine (sysMalloc_env _).bind fun ok => within_ite (fun _ => within_ite (fun _ => ?_) fun _ => ?_)
    fun _ => ?_ <;> grind

@[grind ←] theorem pathPeel_env (path : Name) : Within OnlyEnv (pathPeel path) := by
  unfold pathPeel
  exact within_ite (fun _ => within_pure _) fun _ => by grind

theorem peelNames_env (n : Nat) (path : Name) : Within OnlyEnv (peelNames n path) := by
  induction n generalizing path with
  | zero => exact within_pure []
  | succ n ih =>
    unfold peelNames
    exact within_ite (fun _ => within_pure []) fun _ => (pathPeel_env path).bind fun r =>
      (ih r.1).bind fun _ => within_pure _

@[grind ←] theorem pathDepth_env (path : Name) : Within OnlyEnv (pathDepth path) := by
  unfold pathDepth mustCopyPath
  refine within_ite (fun _ => within_pure 0) fun _ => ?_
  exact ((copyPath_env path).bind fun _ => within_need _ _).bind fun tmp =>
    (peelNames_env _ tmp).bind fun _ => within_pure _

@[grind ←] theorem pathDirs_env (path : Name) (depth : Nat) : Within OnlyEnv (pathDirs path depth) := by
  unfold pathDirs
  refine (copyPath_env path).bind fun r => ?_
  cases r with
  | none => exact within_pure none
  | some tmp => exact (peelNames_env _ tmp).bind fun _ => (within_check _ _).bind fun _ => within_pure _

/-- The names that `search_file_with_pathname` works with, the last one and the directories;
`none` is the failure of its first `sys_malloc`. -/
def pathNames (pathname : Name) : M (Option (Name × List Name)) := do
  match ← copyPath pathname with
  | none => pure none
  | some tmpPath =>
    let (_, lastName) ← pathPeel tmpPath
    let depth ← pathDepth pathname
    mustMalloc (16 * depth)
    let dirs ← pathDirs pathname depth
    pure (some (lastName, dirs.getD []))

theorem pathNames_env (pathname : Name) : Within OnlyEnv (pathNames pathname) := by
  unfold pathNames
  refine (copyPath_env pathname).bind fun r => ?_
  cases r with
  | none => exact within_pure none
  | some tmp =>
    exact (pathPeel_env tmp).bind fun r => (pathDepth_env pathname).bind fun depth =>
      (mustMalloc_env _).bind fun _ => (pathDirs_env pathname depth).bind fun _ => within_pure _

/-- The search once the names are known. -/
def searchNames (isFile : Bool) (lastName : Name) (dirs : List Name) :
    M (Option Nat × Option Dir) := do
  if dirs.length ≤ 1 then
    match ← searchFile rootDir lastName with
    | none => pure (none, none)
    | some inodeNr =>
      let root ← dirAt rootDir
      pure (some inodeNr, some root)
  else
    match ← walkDirs isFile rootDir dirs.reverse with
    | .missing => pure (none, none)
    | .target inodeNr pdir => pure (some inodeNr, some pdir)
    | .inside d =>
      let r ← searchFile d lastName
      let dir ← dirAt d
      pure (r, some dir)

theorem searchFileWithPathname_eq (pathname : Name) (s : State) :
    searchFileWithPathname pathname s = (do
      match ← pathNames pathname with
      | none => pure (none, none)
      | some (lastName, dirs) => searchNames (!isDirName pathname) lastName dirs : M _) s := by
  unfold searchFileWithPathname pathNames
  rw [bind_assoc, bind_apply, bind_apply]
  cases copyPath pathname s with
  | error e => rfl
  | ok r =>
    rcases r with ⟨tmp, t⟩
    cases tmp with
    | none => rfl
    | some tmp =>
      simp only [bind_assoc]
      rfl

/-- The number under a name in a directory, as `search_file` scans its zones. -/
def nameFrom (disk : Store) (zones : Nat → Nat) (name : Name) : Nat → Nat → Option Nat
  | 0, _ => none
  | left + 1, i =>
    match searchSector name (sectors disk (zones i) 1) with
    | some r => r
    | none => nameFrom disk zones name left (i + 1)

def nameIn (disk : Store) (x : Inode) (name : Name) : Option Nat :=
  nameFrom disk (zoneOf disk x) name 140 0

variable {s t : State} {r : Option Nat} {d p : Nat} {x : Inode} {name : Name}

theorem ideRead_ok {lba cnt : Nat} {buf : Store} (h : ideRead lba cnt s = .ok (buf, t)) :
    buf = sectors s.disk lba cnt ∧ t = s := by
  obtain ⟨u, s', hc, h⟩ := bind_eq_ok.mp h
  cases (check_eq_ok.mp hc).2
  cases h
  exact ⟨rfl, rfl⟩

theorem searchZones_ok {zones : Nat → Nat} {left i : Nat}
    (h : searchZones name zones left i s = .ok (r, t)) :
    r = nameFrom s.disk zones name left i ∧ t = s := by
  induction left generalizing i with
  | zero =>
    cases h
    exact ⟨rfl, rfl⟩
  | succ left ih =>
    obtain ⟨buf, s', hread, h⟩ := bind_eq_ok.mp h
    obtain ⟨rfl, rfl⟩ := ideRead_ok hread
    unfold nameFrom
    cases hs : searchSector name (sectors s'.disk (zones i) 1) with
    | some q =>
      rw [hs] at h
      cases h
      exact ⟨rfl, rfl⟩
    | none =>
      rw [hs] at h
      exact ih h

/-- The in-core inode of an open directory. -/
def DirAt (s : State) (d p : Nat) (x : Inode) : Prop :=
  (s.dirs d).bind Dir.inode = some p ∧ s.inodes p = some x

theorem dirAt_ok {dir : Dir} (h : dirAt d s = .ok (dir, t)) : s.dirs d = some dir ∧ t = s := by
  obtain ⟨u, s₁, hg, hneed⟩ := bind_eq_ok.mp h
  cases hg
  cases hd : s.dirs d with
  | none =>
    rw [hd] at hneed
    cases hneed
  | some dir' =>
    rw [hd] at hneed
    cases hneed
    exact ⟨rfl, rfl⟩

theorem dirInode_ok (h : dirInode d s = .ok (p, t)) : (s.dirs d).bind Dir.inode = some p ∧ t = s := by
  obtain ⟨dir, s₁, hdir, hneed⟩ := bind_eq_ok.mp h
  obtain ⟨hdir, rfl⟩ := dirAt_ok hdir
  rw [hdir, Option.bind_some]
  cases hp : dir.inode with
  | none =>
    rw [hp] at hneed
    cases hneed
  | some q =>
    rw [hp] at hneed
    cases hneed
    exact ⟨rfl, rfl⟩

theorem dirInode_some (h : (s.dirs d).bind Dir.inode = some p) : dirInode d s = .ok (p, s) := by
  obtain ⟨dir, hd, hp⟩ := Option.bind_eq_some_iff.mp h
  unfold dirInode dirAt
  rw [bind_assoc, bind_ok (get_apply s), hd]
  change (do Prog.need dir.inode .fault : M Nat) s = _
  rw [hp]
  rfl

theorem inodeAt_ok (h : inodeAt p s = .ok (x, t)) : s.inodes p = some x ∧ t = s := by
  obtain ⟨u, s', hg, h⟩ := bind_eq_ok.mp h
  cases hg
  cases hx : s.inodes p with
  | none =>
    rw [hx] at h
    cases h
  | some y =>
    rw [hx] at h
    cases h
    exact ⟨rfl, rfl⟩

theorem inodeAt_some (h : s.inodes p = some x) : inodeAt p s = .ok (x, s) := by
  unfold inodeAt
  rw [bind_ok (get_apply s), h]
  rfl

theorem searchFile_ok (hd : DirAt s d p x) (h : searchFile d name s = .ok (r, t)) :
    r = nameIn s.disk x name ∧ OnlyEnv s t := by
  unfold searchFile at h
  rw [bind_ok (dirInode_some hd.1), bind_ok (inodeAt_some hd.2)] at h
  -- the zones are searched with the table of the inode, and memory is all that was taken before
  have hscan : ∀ {s₁ : State}, OnlyEnv s s₁ → (do
      mustMalloc 512
      searchZones name (dirZones x (tableOf s.disk x)) 140 0 : M _) s₁ = .ok (r, t) →
        r = nameIn s.disk x name ∧ OnlyEnv s t := by
    intro s₁ h1 h
    obtain ⟨u, s₂, hmalloc, hzones⟩ := bind_eq_ok.mp h
    obtain ⟨rfl, rfl⟩ := searchZones_ok hzones
    have h2 : OnlyEnv s t := IsTrans.trans _ _ _ h1 (mustMalloc_env _ _ _ _ hmalloc)
    refine ⟨?_, h2⟩
    rw [h2.files.disk]
    rfl
  by_cases hx : x.iZones 12 = 0
  · rw [if_pos hx] at h
    obtain ⟨table, s₁, htable, hrest⟩ := bind_eq_ok.mp h
    cases htable
    refine hscan (Std.Refl.refl s) ?_
    rw [tableOf, if_pos hx]
    exact hrest
  · rw [if_neg hx] at h
    obtain ⟨u, s₁, hm, hrest⟩ := bind_eq_ok.mp h
    obtain ⟨table, s₂, hread, hrest⟩ := bind_eq_ok.mp hrest
    obtain ⟨rfl, rfl⟩ := ideRead_ok hread
    have h1 : OnlyEnv s s₂ := mustMalloc_env _ _ _ _ hm
    refine hscan h1 ?_
    rw [tableOf, if_neg hx, ← h1.files.disk]
    exact hrest

end Lookup

/-! ## Opening inodes -/

section Opening
variable {s t : State} {nr p : Nat} {x : Inode}

/-- Where an inode of that number is listed, as `find_open_inode` follows the list. -/
def findIn (inodes : Nat → Option Inode) (nr : Nat) : List Nat → Option Nat
  | [] => none
  | p :: ps => (inodes p).bind fun x => if x.iNum = nr then some p else findIn inodes nr ps

def inCore (s : State) (nr : Nat) : Option Nat := findIn s.inodes nr s.openInodes

theorem findOpenInode_ok {ps : List Nat} {r : Option Nat} (h : findOpenInode nr ps s = .ok (r, t)) :
    r = findIn s.inodes nr ps ∧ t = s := by
  induction ps with
  | nil =>
    cases h
    exact ⟨rfl, rfl⟩
  | cons p ps ih =>
    obtain ⟨x, s', hinode, hrest⟩ := bind_eq_ok.mp h
    obtain ⟨hx, rfl⟩ := inodeAt_ok hinode
    unfold findIn
    rw [hx, Option.bind_some]
    by_cases hnr : x.iNum = nr
    · rw [if_pos hnr] at hrest
      cases hrest
      exact ⟨(if_pos hnr).symm, rfl⟩
    · rw [if_neg hnr] at hrest
      rw [if_neg hnr]
      exact ih hrest

theorem findOpenInode_some {ps : List Nat} (h : findIn s.inodes nr ps = some p) :
    findOpenInode nr ps s = .ok (some p, s) := by
  induction ps with
  | nil => cases h
  | cons q ps ih =>
    unfold findIn at h
    obtain ⟨x, hx, h⟩ := Option.bind_eq_some_iff.mp h
    unfold findOpenInode
    rw [bind_ok (inodeAt_some hx)]
    by_cases hnr : x.iNum = nr
    · rw [if_pos hnr] at h ⊢
      cases h
      rfl
    · rw [if_neg hnr] at h ⊢
      exact ih h

/-- A listed inode is not dangling. -/
theorem findIn_inode {inodes : Nat → Option Inode} {ps : List Nat} (h : findIn inodes nr ps = some p) :
    ∃ x, inodes p = some x ∧ x.iNum = nr := by
  induction ps with
  | nil => cases h
  | cons q ps ih =>
    unfold findIn at h
    obtain ⟨x, hx, h⟩ := Option.bind_eq_some_iff.mp h
    by_cases hnr : x.iNum = nr
    · rw [if_pos hnr] at h
      cases h
      exact ⟨x, hx, hnr⟩
    · rw [if_neg hnr] at h
      exact ih h

theorem inodeOpen_inCore (h : inCore s nr = some p) : inodeOpen nr s = .ok (p, s) := by
  unfold inodeOpen
  rw [bind_ok (get_apply s), bind_ok (findOpenInode_some h)]
  rfl

/-- The inode that the table holds. -/
def storedInode (s : State) (nr : Nat) : Inode :=
  let pos := inodePosition s.sb nr
  Inode.ofBytes fun i => sectors s.disk pos.startLba pos.cnt (pos.offset + i)

/-- The state once the inode is in memory and listed. -/
def State.loaded (s : State) (nr : Nat) (e : Env) : State :=
  let x := storedInode s nr
  { s.putInode s.next (some { x with iCount := (x.iCount + 1) % 65536 }) with
    env := e
    next := s.next + 1
    openInodes := s.next :: s.openInodes }

theorem inodeOpen_ok (h : inodeOpen nr s = .ok (p, t)) :
    (inCore s nr = some p ∧ t = s) ∨
      (inCore s nr = none ∧ p = s.next ∧ ∃ e, t = s.loaded nr e) := by
  unfold inodeOpen at h
  rw [bind_ok (get_apply s)] at h
  obtain ⟨r, s₁, hfind, h⟩ := bind_eq_ok.mp h
  obtain ⟨hr, rfl⟩ := findOpenInode_ok hfind
  cases r with
  | some q =>
    cases h
    exact .inl ⟨hr.symm, rfl⟩
  | none =>
    refine .inr ⟨hr.symm, ?_⟩
    obtain ⟨pos, s₂, hpos, hload⟩ := bind_eq_ok.mp h
    obtain ⟨u, s₃, hm, hload⟩ := bind_eq_ok.mp hload
    obtain ⟨u', s₄, hm', hload⟩ := bind_eq_ok.mp hload
    obtain ⟨buf, s₅, hread, hload⟩ := bind_eq_ok.mp hload
    obtain ⟨u'', s₆, hcheck, hpos⟩ := bind_eq_ok.mp hpos
    cases hcheck
    obtain ⟨u'', s₇, hcheck, hpos⟩ := bind_eq_ok.mp hpos
    cases (check_eq_ok.mp hcheck).2
    cases hpos
    obtain ⟨rfl, rfl⟩ := ideRead_ok hread
    have henv : OnlyEnv s₁ s₅ :=
      IsTrans.trans _ _ _ (mustMalloc_env _ _ _ _ hm) (mustMalloc_env _ _ _ _ hm')
    cases hload
    rw [henv.eq]
    exact ⟨rfl, _, rfl⟩

/-- An open inode is taken as it is, any other one more is listed. -/
theorem dirOpen_ok {d : Nat} (h : dirOpen nr s = .ok (d, t)) :
    (∃ p, inCore s nr = some p ∧ SameFiles s t ∧ ∃ x, DirAt t d p x) ∨
      (inCore s nr = none ∧ t.openInodes.length = s.openInodes.length + 1 ∧
        ∃ p x, DirAt t d p x) := by
  obtain ⟨u, s₁, hm, hrest⟩ := bind_eq_ok.mp h
  obtain ⟨p, s₂, hopen, hnew⟩ := bind_eq_ok.mp hrest
  have henv : OnlyEnv s s₁ := mustMalloc_env _ _ _ _ hm
  have hcore : inCore s₁ nr = inCore s nr := by
    unfold inCore
    rw [henv.files.inodes, henv.files.openInodes]
  cases hnew
  have hdir : ∀ x, s₂.inodes p = some x → DirAt { s₂.putDir s₂.next
      (some { inode := some p, dirPos := 0, dirBuf := fun _ => 0 }) with next := s₂.next + 1 }
      s₂.next p x := fun x hx => ⟨by simp only [Function.update_self, Option.bind_some], hx⟩
  rcases inodeOpen_ok hopen with ⟨hin, rfl⟩ | ⟨hnone, rfl, e, rfl⟩
  · obtain ⟨x, hx, -⟩ := findIn_inode hin
    exact .inl ⟨p, hcore ▸ hin, henv.files, x, hdir x hx⟩
  · refine .inr ⟨hcore ▸ hnone, ?_, _, _, hdir _ (Function.update_self ..)⟩
    rw [← henv.files.openInodes]
    rfl

end Opening

/-! ## The walk -/

/-- Each directory that the names lead to is in memory. -/
def WalksInCore (s : State) : Inode → List Name → Prop
  | _, [] => True
  | x, name :: names => ∀ nr ∈ nameIn s.disk x name, ∃ y ∈ (inCore s nr).bind s.inodes,
      WalksInCore s y names

section Walk
variable {s t : State} {x : Inode}

theorem SameFiles.inCore (h : SameFiles s t) (nr : Nat) : Fs.inCore t nr = Fs.inCore s nr := by
  unfold Fs.inCore
  rw [h.inodes, h.openInodes]

theorem SameFiles.walksInCore (h : SameFiles s t) (names : List Name) :
    WalksInCore t x names ↔ WalksInCore s x names := by
  induction names generalizing x with
  | nil => exact Iff.rfl
  | cons name names ih => simp only [WalksInCore, h.disk, h.inCore, h.inodes, ih]

/-- The list of open inodes grows along a walk, and stays the same just when all the directories
are on it. -/
theorem walkDirs_open {isFile : Bool} {names : List Name} {d p : Nat} {w : Walk}
    (hd : DirAt s d p x) (h : walkDirs isFile d names s = .ok (w, t)) :
    s.openInodes.length ≤ t.openInodes.length ∧
      (t.openInodes.length = s.openInodes.length ↔ WalksInCore s x names) ∧
      (WalksInCore s x names → SameFiles s t) := by
  induction names generalizing s d p x with
  | nil =>
    cases h
    exact ⟨Nat.le_refl _, iff_of_true rfl trivial, fun _ => rfl⟩
  | cons name names ih =>
    obtain ⟨r, s₁, hsearch, hnext⟩ := bind_eq_ok.mp h
    obtain ⟨hr, henv⟩ := searchFile_ok hd hsearch
    have hfiles := henv.files
    cases r with
    | none =>
      cases hnext
      have hw : WalksInCore s x (name :: names) := by
        intro nr hnr
        rw [← hr] at hnr
        cases hnr
      rw [hfiles.openInodes]
      exact ⟨Nat.le_refl _, iff_of_true rfl hw, fun _ => hfiles⟩
    | some nr =>
      obtain ⟨next, s₂, hopen, hrest⟩ := bind_eq_ok.mp hnext
      -- the rest of the walk is the target or the walk from the next directory
      have hgo : ∀ {q : Nat} {y : Inode}, DirAt s₂ next q y →
          s₂.openInodes.length ≤ t.openInodes.length ∧
            (t.openInodes.length = s₂.openInodes.length ↔ WalksInCore s₂ y names) ∧
            (WalksInCore s₂ y names → SameFiles s₂ t) := by
        intro q y hy
        by_cases hend : names = [] ∧ isFile = false
        · rw [if_pos hend] at hrest
          obtain ⟨prev, s₃, hprev, hpure⟩ := bind_eq_ok.mp hrest
          obtain ⟨-, rfl⟩ := dirAt_ok hprev
          cases hpure
          rw [hend.1]
          exact ⟨Nat.le_refl _, iff_of_true rfl trivial, fun _ => rfl⟩
        · rw [if_neg hend] at hrest
          exact ih hy hrest
      have hw : WalksInCore s x (name :: names) ↔
          ∃ y ∈ (inCore s nr).bind s.inodes, WalksInCore s y names := by
        simp only [WalksInCore, ← hr, Option.mem_def, Option.some.injEq, forall_eq']
      rw [hw]
      rcases dirOpen_ok hopen with ⟨q, hin, hsame, y, hy⟩ | ⟨hnone, hlen, q, y, hy⟩
      · obtain ⟨hle, hiff, hkept⟩ := hgo hy
        have hsame : SameFiles s s₂ := IsTrans.trans _ _ _ hfiles hsame
        have hyw : WalksInCore s₂ y names ↔
            ∃ y ∈ (inCore s nr).bind s.inodes, WalksInCore s y names := by
          rw [hsame.walksInCore, ← hfiles.inCore, hin, Option.bind_some, ← hsame.inodes]
          simp only [hy.2, Option.mem_def, Option.some.injEq, exists_eq_left']
        rw [← hsame.openInodes, ← hyw]
        exact ⟨hle, hiff, fun h => IsTrans.trans _ _ _ hsame (hkept h)⟩
      · obtain ⟨hle, -, -⟩ := hgo hy
        have hno : ¬ ∃ y ∈ (inCore s nr).bind s.inodes, WalksInCore s y names := by
          rw [← hfiles.inCore, hnone]
          rintro ⟨y, hy, -⟩
          cases hy
        rw [hfiles.openInodes] at hlen
        exact ⟨by omega, iff_of_false (by omega) hno, fun h => (hno h).elim⟩

theorem searchZones_env (name : Name) (zones : Nat → Nat) (left i : Nat) :
    Within OnlyEnv (searchZones name zones left i) := by
  intro s r t h
  rw [(searchZones_ok h).2]
  rfl

theorem searchFile_env (d : Nat) (name : Name) : Within OnlyEnv (searchFile d name) := by
  unfold searchFile dirInode dirAt inodeAt
  refine Within.bind (Within.bind (within_get.bind fun _ => within_need _ _) fun _ => within_need _ _)
    fun p => Within.bind (within_get.bind fun _ => within_need _ _) fun x => ?_
  refine within_ite (fun _ => ?_) fun _ => ?_
  · exact (within_pure _).bind fun _ => (mustMalloc_env _).bind fun _ => searchZones_env _ _ _ _
  · refine (mustMalloc_env _).bind fun _ => Within.bind ?_ fun _ =>
      (mustMalloc_env _).bind fun _ => searchZones_env _ _ _ _
    unfold ideRead
    grind

/-- A directory that was searched is open. -/
theorem dirAt_of_search {d : Nat} {name : Name} {r : Option Nat}
    (h : searchFile d name s = .ok (r, t)) : ∃ p x, DirAt s d p x := by
  obtain ⟨p, s₁, hp, hrest⟩ := bind_eq_ok.mp h
  obtain ⟨x, s₂, hx, -⟩ := bind_eq_ok.mp hrest
  obtain ⟨hdir, rfl⟩ := dirInode_ok hp
  exact ⟨p, x, hdir, (inodeAt_ok hx).1⟩

/-- Every directory on the path is in memory. With one name at most, none is opened. -/
def PathInCore (s : State) (pathname : Name) : Prop :=
  ∀ lastName dirs v, pathNames pathname s = .ok (some (lastName, dirs), v) → 1 < dirs.length →
    ∀ p x, DirAt s rootDir p x → WalksInCore s x dirs.reverse

theorem searchNames_open {isFile : Bool} {lastName : Name} {dirs : List Name}
    {r : Option Nat × Option Dir} (h : searchNames isFile lastName dirs s = .ok (r, t)) :
    s.openInodes.length ≤ t.openInodes.length ∧
      (t.openInodes.length = s.openInodes.length ↔
        (1 < dirs.length → ∀ p x, DirAt s rootDir p x → WalksInCore s x dirs.reverse)) ∧
      ((1 < dirs.length → ∀ p x, DirAt s rootDir p x → WalksInCore s x dirs.reverse) →
        SameFiles s t) := by
  unfold searchNames at h
  by_cases hlen : dirs.length ≤ 1
  · rw [if_pos hlen] at h
    obtain ⟨found, s₁, hsearch, hrest⟩ := bind_eq_ok.mp h
    have henv : OnlyEnv s s₁ := searchFile_env _ _ _ _ _ hsearch
    have ht : t = s₁ := by
      cases found with
      | none =>
        cases hrest
        rfl
      | some nr =>
        obtain ⟨root, s₂, hroot, hpure⟩ := bind_eq_ok.mp hrest
        cases hpure
        exact (dirAt_ok hroot).2
    subst ht
    rw [henv.files.openInodes]
    exact ⟨Nat.le_refl _, iff_of_true rfl fun h => absurd h (by omega), fun _ => henv.files⟩
  · rw [if_neg hlen] at h
    obtain ⟨w, s₁, hwalk, hrest⟩ := bind_eq_ok.mp h
    have ht : OnlyEnv s₁ t := by
      cases w with
      | missing =>
        cases hrest
        rfl
      | target nr pdir =>
        cases hrest
        rfl
      | inside d =>
        obtain ⟨found, s₂, hsearch, hrest⟩ := bind_eq_ok.mp hrest
        obtain ⟨dir, s₃, hdir, hpure⟩ := bind_eq_ok.mp hrest
        cases hpure
        rw [(dirAt_ok hdir).2]
        exact searchFile_env _ _ _ _ _ hsearch
    obtain ⟨name, names, hnames⟩ : ∃ name names, dirs.reverse = name :: names := by
      cases hrev : dirs.reverse with
      | nil => exact absurd (List.reverse_eq_nil_iff.mp hrev) (by rintro rfl; simp at hlen)
      | cons name names => exact ⟨name, names, rfl⟩
    have hroot : ∃ p x, DirAt s rootDir p x := by
      rw [hnames] at hwalk
      obtain ⟨found, s₂, hsearch, -⟩ := bind_eq_ok.mp hwalk
      exact dirAt_of_search hsearch
    obtain ⟨p, x, hd⟩ := hroot
    obtain ⟨hle, hiff, hkept⟩ := walkDirs_open hd hwalk
    have hcond : (1 < dirs.length → ∀ p x, DirAt s rootDir p x → WalksInCore s x dirs.reverse) ↔
        WalksInCore s x dirs.reverse := by
      refine ⟨fun h => h (by omega) p x hd, fun h _ p' x' hd' => ?_⟩
      have hp : p' = p := Option.some.inj (hd'.1.symm.trans hd.1)
      have hx : x' = x := Option.some.inj ((hp ▸ hd'.2).symm.trans hd.2)
      rw [hx]
      exact h
    rw [hcond, ht.files.openInodes]
    exact ⟨hle, hiff, fun h => IsTrans.trans _ _ _ (hkept h) ht.files⟩

/-- A search that finds its file opens nothing just when the path is in memory. -/
theorem search_open {pathname : Name} {nr : Nat} {pdir : Option Dir}
    (h : searchFileWithPathname pathname s = .ok ((some nr, pdir), t)) :
    s.openInodes.length ≤ t.openInodes.length ∧
      (t.openInodes.length = s.openInodes.length ↔ PathInCore s pathname) ∧
      (PathInCore s pathname → SameFiles s t) := by
  rw [searchFileWithPathname_eq] at h
  obtain ⟨names, s₁, hnames, hrest⟩ := bind_eq_ok.mp h
  have henv : OnlyEnv s s₁ := pathNames_env _ _ _ _ hnames
  cases names with
  | none => cases hrest
  | some names =>
    obtain ⟨lastName, dirs⟩ := names
    obtain ⟨hle, hiff, hkept⟩ := searchNames_open hrest
    have hroot : ∀ p x, DirAt s₁ rootDir p x ↔ DirAt s rootDir p x := by
      unfold DirAt
      simp only [henv.dirs, henv.files.inodes, implies_true]
    have hcond : PathInCore s pathname ↔
        (1 < dirs.length → ∀ p x, DirAt s₁ rootDir p x → WalksInCore s₁ x dirs.reverse) := by
      unfold PathInCore
      simp only [hroot, henv.files.walksInCore]
      refine ⟨fun h => h lastName dirs s₁ hnames, fun h lastName' dirs' v hnames' => ?_⟩
      rw [hnames] at hnames'
      cases hnames'
      exact h
    rw [hcond, ← henv.files.openInodes]
    exact ⟨hle, hiff, fun h => IsTrans.trans _ _ _ henv.files (hkept h)⟩

end Walk

/-! ## A small tree -/

/-- The root directory in core, with the directory 1 under its stored name. -/
def rootWithChild : State :=
  { oneZone (putEntry (dotsSector 0 0) 2 (entryOf [97#8, slash] 1 .directory)) with
    disk := patch (patch (patch (fun _ => 0)
      (512 * 900) 512 (putEntry (dotsSector 0 0) 2 (entryOf [97#8, slash] 1 .directory)))
      (512 * 901) 512 (dotsSector 1 0))
      (512 * 4 + 100) 100 (newDirInode 1 901 fun _ => 0).toBytes
    inodes := Function.update (fun _ => none) 1 (some { zoneDir with iNum := 0, iSize := 72 })
    dirs := Function.update (fun _ => none) rootDir
      (some { inode := some 1, dirPos := 0, dirBuf := fun _ => 0 }) }

theorem rootWithChild_fresh : rootWithChild.Fresh where
  dirs d hd := by
    have hne : d ≠ rootDir := by
      rintro rfl
      exact absurd hd (by decide)
    exact Function.update_of_ne hne _ fun _ => none
  openInodes := by decide

end Frog.Fs
