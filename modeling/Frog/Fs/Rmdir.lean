import Frog.Fs.Locks
import Frog.Fs.Walk

/-!
# Removing a directory

`sys_rmdir` tests the size of the directory that holds the one to be removed, and closes neither of
them.
-/

namespace Frog.Fs

set_option autoImplicit false
open Bytes Prog

/-! ## What the call should do -/

/-- An inode as it is now, in memory or in the table. -/
def inodeNow (s : State) (nr : Nat) : Inode := ((inCore s nr).bind s.inodes).getD (storedInode s nr)

def OnlyDots (s : State) (nr : Nat) : Prop :=
  ∀ k i e, liveAt s.disk (inodeNow s nr) k i = some e → isDots e = true

/-- The entry, the inode's bit and its zones are released, and nothing else changes. The parent's
inode `y` is in memory at `q`. -/
structure DirRemoved (s t : State) (nr q : Nat) (y : Inode) : Prop where
  entry : ∃ y' k i e, t.inodes q = some y' ∧ y'.iSize = u32Sub y.iSize 24 ∧
    liveAt s.disk y k i = some e ∧ e.iNo = nr ∧ liveAt t.disk y' k i = none ∧
    ∀ k' i', (k', i') ≠ (k, i) → liveAt t.disk y' k' i' = liveAt s.disk y k' i'
  inodeBit : t.inodeBitmap = s.inodeBitmap.setValue nr false
  zones : ∀ k, zoneOf s.disk (inodeNow s nr) k ≠ 0 →
    t.zoneBitmap.getValue (zoneOf s.disk (inodeNow s nr) k - s.sb.sDataStartLba) = false
  otherZones : ∀ b, t.zoneBitmap.getValue b ≠ s.zoneBitmap.getValue b →
    ∃ k, b = zoneOf s.disk (inodeNow s nr) k - s.sb.sDataStartLba
  openInodes : t.openInodes = s.openInodes ∧ ∀ p ∈ s.openInodes, p ≠ q → t.inodes p = s.inodes p
  openDirs : t.dirs = s.dirs

/-- The directory `nr` is removed if it is empty, and otherwise nothing happens. -/
def RemovesIfEmpty (s : State) (pathname : Name) (nr q : Nat) (y : Inode) : Prop :=
  ∃ r t, sysRmdir pathname s = .ok (r, t) ∧ (r = true ↔ OnlyDots s nr) ∧
    (r = true → DirRemoved s t nr q y) ∧ (r = false → SameTree s t)

/-! ## What the removal leaves alone -/

abbrev SameDirs : State → State → Prop := SamePart State.dirs

abbrev Later (s t : State) : Prop := s.next ≤ t.next

instance : Std.Refl Later := ⟨fun s => Nat.le_refl s.next⟩

instance : IsTrans State Later := ⟨fun _ _ _ => Nat.le_trans⟩

section Frame

theorem OnlyEnv.later {s t : State} (h : OnlyEnv s t) : Later s t := by
  rw [OnlyEnv.eq h]

theorem dirOpen_later {s t : State} {nr d : Nat} (h : dirOpen nr s = .ok (d, t)) :
    s.next ≤ d ∧ s.next ≤ t.next := by
  obtain ⟨u, s₁, hm, hrest⟩ := bind_eq_ok.mp h
  obtain ⟨p, s₂, hopen, hnew⟩ := bind_eq_ok.mp hrest
  have h1 : s.next ≤ s₁.next := OnlyEnv.later (mustMalloc_env _ _ _ _ hm)
  have h2 : s₁.next ≤ s₂.next := by
    rcases inodeOpen_ok hopen with ⟨-, rfl⟩ | ⟨-, -, e, rfl⟩
    · exact Nat.le_refl _
    · exact Nat.le_succ _
  cases hnew
  exact ⟨by omega, Nat.le_succ_of_le (by omega)⟩

section Search
variable {R : State → State → Prop} [Std.Refl R] [IsTrans State R]

/-- What memory and the opening of directories stay within, a search does. -/
theorem walkDirs_within (henv : ∀ s t, OnlyEnv s t → R s t) (hopen : ∀ nr, Within R (dirOpen nr))
    (isFile : Bool) (d : Nat) (names : List Name) : Within R (walkDirs isFile d names) := by
  induction names generalizing d with
  | nil => exact within_pure _
  | cons name names ih =>
    refine ((searchFile_env d name).mono henv).bind fun r => ?_
    cases r with
    | none => exact within_pure _
    | some nr =>
      refine (hopen nr).bind fun next => within_ite (fun _ => ?_) fun _ => ih next
      exact Within.bind (by unfold dirAt; grind) fun _ => within_pure _

theorem search_within (henv : ∀ s t, OnlyEnv s t → R s t) (hopen : ∀ nr, Within R (dirOpen nr))
    (pathname : Name) : Within R (searchFileWithPathname pathname) := by
  intro s r t h
  rw [searchFileWithPathname_eq] at h
  refine Within.bind ((pathNames_env pathname).mono henv) (fun names => ?_) s r t h
  have hfile : ∀ d name, Within R (searchFile d name) := fun d name => (searchFile_env d name).mono henv
  have hdir : ∀ d, Within R (dirAt d) := fun d => by
    unfold dirAt
    grind
  cases names with
  | none => exact within_pure _
  | some names =>
    obtain ⟨lastName, dirs⟩ := names
    refine within_ite (fun _ => (hfile _ _).bind fun r => ?_) fun _ =>
      (walkDirs_within henv hopen _ _ _).bind fun w => ?_
    · cases r with
      | none => exact within_pure _
      | some nr => exact (hdir _).bind fun _ => within_pure _
    · cases w with
      | missing => exact within_pure _
      | target nr pdir => exact within_pure _
      | inside d => exact (hfile _ _).bind fun _ => (hdir _).bind fun _ => within_pure _

end Search

theorem search_later (pathname : Name) : Within Later (searchFileWithPathname pathname) :=
  search_within (fun _ _ h => h.later) (fun _ _ _ _ h => (dirOpen_later h).2) pathname

@[grind ←] theorem mustMalloc_dirs (n : Nat) : Within SameDirs (mustMalloc n) :=
  (mustMalloc_env n).mono fun _ _ h => h.dirs

@[grind ←] theorem ideRead_dirs (lba cnt : Nat) : Within SameDirs (ideRead lba cnt) := by
  unfold ideRead
  grind

@[grind ←] theorem ideWrite_dirs (lba : Nat) (buf : Store) (cnt : Nat) :
    Within SameDirs (ideWrite lba buf cnt) :=
  (within_check _ _).bind fun _ => within_modify fun _ => rfl

@[grind ←] theorem setBit_dirs (m : BitmapType) (pos : Nat) (v : Bool) :
    Within SameDirs (setBit m pos v) := by
  unfold setBit
  cases m <;> exact within_get.bind fun _ => (within_check _ _).bind fun _ => within_modify fun _ => rfl

@[grind ←] theorem flushBitmap_dirs (m : BitmapType) (i : Nat) : Within SameDirs (flushBitmap m i) := by
  unfold flushBitmap
  cases m <;> exact within_get.bind fun _ => ideWrite_dirs _ _ _

@[grind ←] theorem inodeAt_dirs (p : Nat) : Within SameDirs (inodeAt p) := by
  unfold inodeAt
  grind

@[grind ←] theorem setInode_dirs (p : Nat) (x : Inode) : Within SameDirs (setInode p x) :=
  within_modify fun _ => rfl

@[grind ←] theorem localeInode_dirs (nr : Nat) : Within SameDirs (localeInode nr) := by
  unfold localeInode
  grind

@[grind ←] theorem flushInode_dirs (x : Inode) : Within SameDirs (flushInode x) := by
  unfold flushInode
  grind

@[grind ←] theorem inodeOpen_dirs (nr : Nat) : Within SameDirs (inodeOpen nr) := by
  intro s p t h
  rcases inodeOpen_ok h with ⟨-, rfl⟩ | ⟨-, -, e, rfl⟩ <;> rfl

@[grind ←] theorem inodeClose_dirs (p : Nat) : Within SameDirs (inodeClose p) := by
  unfold inodeClose freeInode
  refine (inodeAt_dirs p).bind fun x => within_ite (fun _ => ?_) fun _ => setInode_dirs _ _
  refine within_get.bind fun s => (within_check _ _).bind fun _ => ?_
  exact Within.bind (within_modify fun _ => rfl) fun _ => within_modify fun _ => rfl

theorem deleteZones_dirs (p nr left i : Nat) (zones : Nat → Nat) (found : Option Nat) :
    Within SameDirs (deleteZones p nr left i zones found) := by
  have hshrink : Within SameDirs (shrinkSize p) := by
    unfold shrinkSize
    grind
  have hdrop : ∀ zones i, Within SameDirs (dropZone p zones i) := by
    intro zones i
    unfold dropZone
    refine within_get.bind fun s => (setBit_dirs _ _ _).bind fun _ => (flushBitmap_dirs _ _).bind fun _ =>
      (inodeAt_dirs p).bind fun x => within_ite (fun _ => ?_) fun _ => ?_
    · grind
    · refine (within_check _ _).bind fun _ => within_ite (fun _ => ?_) fun _ => ?_ <;> grind
  induction left generalizing i zones found with
  | zero => exact within_pure ()
  | succ left ih =>
    unfold deleteZones
    refine (ideRead_dirs _ _).bind fun buf => within_get.bind fun s => (within_check _ _).bind fun _ => ?_
    split
    · exact ih _ _ _
    · refine within_ite (fun _ => (hdrop _ _).bind fun _ => hshrink.bind fun _ => ih _ _ _) fun _ => ?_
      exact (ideWrite_dirs _ _ _).bind fun _ => (within_pure _).bind fun _ => hshrink.bind fun _ =>
        ih _ _ _

@[grind ←] theorem inodeAllZones_dirs (x : Inode) : Within SameDirs (inodeAllZones x) := by
  unfold inodeAllZones readTable
  refine Within.bind (within_ite (fun _ => within_pure _) fun _ => ideRead_dirs _ _) fun _ =>
    within_pure _

theorem releaseZones_dirs (zones : Nat → Nat) (left i last : Nat) :
    Within SameDirs (releaseZones zones left i last) := by
  induction left generalizing i last with
  | zero => exact within_pure last
  | succ left ih =>
    unfold releaseZones releaseZone
    refine within_ite (fun _ => within_pure last) fun _ => Within.bind ?_ fun _ => ih _ _
    grind

theorem inodeRelease_dirs (nr : Nat) : Within SameDirs (inodeRelease nr) := by
  have hjunk : Within SameDirs readJunk := by
    intro s b t h
    cases h
    rfl
  have hdelete : Within SameDirs (inodeDelete nr) := by
    unfold inodeDelete
    grind
  unfold inodeRelease releaseZone
  refine (inodeOpen_dirs nr).bind fun p => hjunk.bind fun junk => (inodeAt_dirs p).bind fun x =>
    (inodeAllZones_dirs x).bind fun zones => (releaseZones_dirs _ _ _ _).bind fun last => ?_
  refine within_ite (fun _ => ?_) fun _ => ?_ <;> grind

theorem dirRemove_dirs (parent : Dir) (child : Nat) : Within SameDirs (dirRemove parent child) := by
  have hdelete : ∀ nr, Within SameDirs (deleteDirEntry parent nr) := by
    intro nr
    unfold deleteDirEntry
    exact (within_need _ _).bind fun p => (inodeAt_dirs p).bind fun x =>
      (inodeAllZones_dirs x).bind fun zones => deleteZones_dirs _ _ _ _ _ _
  have hchild : Within SameDirs (dirInode child) := by
    unfold dirInode dirAt
    grind
  unfold dirRemove
  refine hchild.bind fun p => (inodeAt_dirs p).bind fun x => (within_check _ _).bind fun _ =>
    ((sysMalloc_env _).mono fun _ _ h => h.dirs).bind fun ok => within_ite (fun _ => ?_) fun _ =>
      within_pure false
  exact (hdelete _).bind fun _ => (inodeRelease_dirs _).bind fun _ => within_pure true

end Frame

/-! ## When the call does it -/

section Call
variable {s u t : State} {nr p q : Nat} {x y : Inode} {pdir : Dir} {pathname : Name} {r : Bool}

/-- The state once a directory whose inode is in memory is open. -/
def State.dirOpened (s : State) (p : Nat) : State :=
  { s.nextMalloc.putDir s.next (some { inode := some p, dirPos := 0, dirBuf := fun _ => 0 }) with
    next := s.next + 1 }

theorem dirOpen_inCore (h : inCore s nr = some p) (hm : s.env.malloc 0 = true) :
    dirOpen nr s = .ok (s.next, s.dirOpened p) := by
  have hmalloc : mustMalloc 520 s = .ok ((), s.nextMalloc) := by
    unfold mustMalloc
    rw [bind_ok (sysMalloc_ok (by decide))]
    exact check_eq_ok.mpr ⟨hm, rfl⟩
  unfold dirOpen
  rw [bind_ok hmalloc, bind_ok (inodeOpen_inCore (s := s.nextMalloc) h)]
  rfl

theorem malloc_of_dirOpen {d : Nat} (h : dirOpen nr s = .ok (d, t)) : s.env.malloc 0 = true := by
  obtain ⟨u, s₁, hm, -⟩ := bind_eq_ok.mp h
  obtain ⟨ok, s₂, hok, hcheck⟩ := bind_eq_ok.mp hm
  rw [sysMalloc_ok (by decide)] at hok
  cases hok
  exact (check_eq_ok.mp hcheck).1

/-- `dir_remove` gives up before it has begun. -/
theorem dirRemove_false {parent : Dir} {d : Nat} (hd : DirAt s d p x) :
    dirRemove parent d s = .ok (false, t) ↔
      (∀ k, k < 12 → x.iZones (k + 1) = 0) ∧ s.env.malloc 0 = false ∧ s.nextMalloc = t := by
  unfold dirRemove
  rw [bind_ok (dirInode_some hd.1), bind_ok (inodeAt_some hd.2)]
  have hzones : ((List.range 12).all fun k => x.iZones (k + 1) = 0) = true ↔
      ∀ k, k < 12 → x.iZones (k + 1) = 0 := by
    simp only [List.all_eq_true, List.mem_range, decide_eq_true_eq]
  rw [← hzones]
  by_cases hz : ((List.range 12).all fun k => x.iZones (k + 1) = 0) = true
  · rw [bind_ok (a := ()) (check_eq_ok.mpr ⟨hz, rfl⟩), bind_ok (sysMalloc_ok (by decide))]
    cases hm : s.env.malloc 0 with
    | false =>
      refine ⟨fun h => ?_, fun h => ?_⟩
      · cases h
        exact ⟨hz, rfl, rfl⟩
      · rw [← h.2.2]
        rfl
    | true =>
      refine iff_of_false (fun h => ?_) fun h => by cases h.2.1
      obtain ⟨u, s₁, -, h⟩ := bind_eq_ok.mp h
      obtain ⟨u', s₂, -, h⟩ := bind_eq_ok.mp h
      cases h
  · refine iff_of_false (fun h => ?_) fun h => hz h.1
    obtain ⟨u, s₁, hcheck, -⟩ := bind_eq_ok.mp h
    exact hz (check_eq_ok.mp hcheck).1

/-- The parent's size is not that of an empty directory, or there is no memory for the removal. -/
def Refuses (x y : Inode) (e : Env) : Prop :=
  y.iSize ≠ 48 ∨ ((∀ k, k < 12 → x.iZones (k + 1) = 0) ∧ e.malloc 1 = false)

/-- What is left once the path is resolved. -/
theorem sysRmdir_eq (hfound : searchFileWithPathname pathname s = .ok ((some nr, some pdir), u))
    (hq : pdir.inode = some q) :
    sysRmdir pathname s = (do
      let target ← dirOpen nr
      let y ← inodeAt q
      if dirIsEmpty y then dirRemove pdir target else pure false : M Bool) u := by
  unfold sysRmdir
  rw [bind_ok hfound]
  simp only
  rw [bind_ok (show need (some pdir) Stop.fault u = .ok (pdir, u) from rfl), hq]
  rfl

/-- A removal leaves the removed directory open. -/
theorem open_after_removal (hfresh : s.Fresh) (hlater : s.next ≤ u.next)
    (h : (do
      let target ← dirOpen nr
      let y ← inodeAt q
      if dirIsEmpty y then dirRemove pdir target else pure false : M Bool) u = .ok (true, t)) :
    t.dirs ≠ s.dirs := by
  obtain ⟨d, s₁, hopen, hrest⟩ := bind_eq_ok.mp h
  obtain ⟨y', s₂, hy', hremove⟩ := bind_eq_ok.mp hrest
  obtain ⟨-, rfl⟩ := inodeAt_ok hy'
  have hsame : t.dirs = s₂.dirs := by
    by_cases he : dirIsEmpty y' = true
    · rw [if_pos he] at hremove
      exact dirRemove_dirs _ _ _ _ _ hremove
    · rw [if_neg he] at hremove
      cases hremove
  have hd : ∃ p x, DirAt s₂ d p x := by
    rcases dirOpen_ok hopen with ⟨p, -, -, x, hd⟩ | ⟨-, -, p, x, hd⟩ <;> exact ⟨p, x, hd⟩
  obtain ⟨p, x, hd⟩ := hd
  intro heq
  have hnone : s₂.dirs d = none := by
    rw [← hsame, heq]
    exact hfresh.dirs d (Nat.le_trans hlater (dirOpen_later hopen).1)
  rw [DirAt, hnone] at hd
  cases hd.1

theorem refusal_openInodes {d : Nat} (hd : DirAt s d p x)
    (h : (do
      let y ← inodeAt q
      if dirIsEmpty y then dirRemove pdir d else pure false : M Bool) s = .ok (false, t)) :
    t.openInodes = s.openInodes := by
  obtain ⟨y, s₁, hy, hremove⟩ := bind_eq_ok.mp h
  obtain ⟨-, rfl⟩ := inodeAt_ok hy
  by_cases he : dirIsEmpty y = true
  · rw [if_pos he] at hremove
    rw [← ((dirRemove_false hd).mp hremove).2.2]
  · rw [if_neg he] at hremove
    cases hremove
    rfl

/-- A refusal with the target in memory has taken nothing but memory for the open directory. -/
theorem refusal_inCore (hin : inCore u nr = some p) (hx : u.inodes p = some x)
    (hy : u.inodes q = some y) (hm : u.env.malloc 0 = true) :
    (do
      let target ← dirOpen nr
      let y ← inodeAt q
      if dirIsEmpty y then dirRemove pdir target else pure false : M Bool) u = .ok (false, t) ↔
      Refuses x y u.env ∧
        t = if y.iSize = 48 then (u.dirOpened p).nextMalloc else u.dirOpened p := by
  have hd : DirAt (u.dirOpened p) u.next p x :=
    ⟨by simp only [State.dirOpened, Function.update_self, Option.bind_some], hx⟩
  rw [bind_ok (dirOpen_inCore hin hm), bind_ok (inodeAt_some (s := u.dirOpened p) hy)]
  unfold Refuses dirIsEmpty
  by_cases h48 : y.iSize = 48
  · rw [if_pos (by rw [h48]; rfl), dirRemove_false hd, if_pos h48]
    have hmalloc : (u.dirOpened p).env.malloc 0 = u.env.malloc 1 := rfl
    rw [hmalloc, and_assoc.symm, eq_comm (b := t)]
    simp only [ne_eq, h48, not_true_eq_false, false_or]
  · rw [if_neg (by rw [beq_iff_eq]; exact h48), if_neg h48]
    refine ⟨fun h => ?_, fun h => ?_⟩
    · cases h
      exact ⟨.inl h48, rfl⟩
    · rw [h.2]
      rfl

theorem removesIfEmpty_iff (hfresh : s.Fresh)
    (hfound : searchFileWithPathname pathname s = .ok ((some nr, some pdir), u))
    (hq : pdir.inode = some q) (hy : u.inodes q = some y) :
    RemovesIfEmpty s pathname nr q y ↔
      ¬ OnlyDots s nr ∧ PathInCore s pathname ∧ u.env.malloc 0 = true ∧
        ∃ x ∈ (inCore s nr).bind s.inodes, Refuses x y u.env := by
  rw [RemovesIfEmpty, sysRmdir_eq hfound hq]
  obtain ⟨hle, hiff, hkept⟩ := search_open hfound
  constructor
  · rintro ⟨r, t, hrun, hr, hremoved, hkeeps⟩
    cases r with
    | true =>
      exact absurd (hremoved rfl).openDirs
        (open_after_removal hfresh (search_later _ _ _ _ hfound) hrun)
    | false =>
      have hlen : t.openInodes.length = s.openInodes.length := by
        have hsame : t.tree = s.tree := hkeeps rfl
        have hlist := congrArg (fun v => v.2.2.2.length) hsame
        simpa only [State.tree, List.length_map] using hlist
      obtain ⟨d, s₁, hopen, hrest⟩ := bind_eq_ok.mp hrun
      rcases dirOpen_ok hopen with ⟨p, hin, -, -⟩ | ⟨-, hlong, p, x, hd⟩
      · obtain ⟨x, hx, -⟩ := findIn_inode hin
        have hm := malloc_of_dirOpen hopen
        obtain ⟨href, ht⟩ := (refusal_inCore hin hx hy hm).mp hrun
        have hu : t.openInodes = u.openInodes := by
          rw [ht]
          split <;> rfl
        have hpath : PathInCore s pathname := hiff.mp (by rw [← hu, hlen])
        refine ⟨fun h => (nomatch hr.mpr h), hpath, hm, x, ?_, href⟩
        rw [← (hkept hpath).inCore, ← (hkept hpath).inodes]
        exact Option.bind_eq_some_iff.mpr ⟨p, hin, hx⟩
      · have hu : t.openInodes = s₁.openInodes := refusal_openInodes hd hrest
        rw [hu] at hlen
        omega
  · rintro ⟨hdots, hpath, hm, x, hx, href⟩
    have hsame := hkept hpath
    rw [← hsame.inCore, ← hsame.inodes] at hx
    obtain ⟨p, hin, hx⟩ := Option.bind_eq_some_iff.mp hx
    refine ⟨false, _, (refusal_inCore hin hx hy hm).mpr ⟨href, rfl⟩, iff_of_false (by decide) hdots,
      fun h => (nomatch h), fun _ => ?_⟩
    refine SameFiles.tree (IsTrans.trans _ _ _ hsame ?_)
    split <;> rfl

end Call

/-- The root's inode is in memory at 1. -/
theorem removesIfEmpty_iff_child : ∃ u pdir y,
    searchFileWithPathname [slash, 97#8, slash] rootWithChild = .ok ((some 1, some pdir), u) ∧
      pdir.inode = some 1 ∧ u.inodes 1 = some y ∧
      (RemovesIfEmpty rootWithChild [slash, 97#8, slash] 1 1 y ↔
        ¬ OnlyDots rootWithChild 1 ∧ PathInCore rootWithChild [slash, 97#8, slash] ∧
          u.env.malloc 0 = true ∧
          ∃ x ∈ (inCore rootWithChild 1).bind rootWithChild.inodes, Refuses x y u.env) := by
  have hresult : (searchFileWithPathname [slash, 97#8, slash] rootWithChild).map
      (fun r => (r.1.1, r.1.2.bind Dir.inode, (r.2.inodes 1).isSome)) = .ok (some 1, some 1, true) := by
    decide +kernel
  cases hrun : searchFileWithPathname [slash, 97#8, slash] rootWithChild with
  | error e =>
    rw [hrun] at hresult
    cases hresult
  | ok r =>
    obtain ⟨⟨found, parent⟩, u⟩ := r
    rw [hrun] at hresult
    simp only [Except.map, Except.ok.injEq, Prod.mk.injEq] at hresult
    obtain ⟨rfl, hparent, hy⟩ := hresult
    obtain ⟨pdir, rfl, hq⟩ := Option.bind_eq_some_iff.mp hparent
    obtain ⟨y, hy⟩ := Option.isSome_iff_exists.mp hy
    exact ⟨u, pdir, y, rfl, hq, hy, removesIfEmpty_iff rootWithChild_fresh hrun hq hy⟩

/-- The directory is empty, but it is the root's size that is tested. -/
theorem empty_child_stays : OnlyDots rootWithChild 1 ∧
    (∃ t, sysRmdir [slash, 97#8, slash] rootWithChild = .ok (false, t)) ∧
    ∀ y, ¬ RemovesIfEmpty rootWithChild [slash, 97#8, slash] 1 1 y := by
  have hdots : OnlyDots rootWithChild 1 := by
    have hall : ∀ k, k < 140 → zoneOf rootWithChild.disk (inodeNow rootWithChild 1) k ≠ 0 →
        ∀ i, i < perSector →
          isFree (dirSlot rootWithChild.disk (inodeNow rootWithChild 1) k i) = false →
          isDots (dirSlot rootWithChild.disk (inodeNow rootWithChild 1) k i) = true := by
      decide +kernel
    intro k i e he
    obtain ⟨hk, hi, hz, hfree, rfl⟩ := liveAt_eq_some.mp he
    exact hall k hk hz i hi hfree
  have hrun : ∃ t, sysRmdir [slash, 97#8, slash] rootWithChild = .ok (false, t) :=
    ok_of_result (by decide +kernel)
  refine ⟨hdots, hrun, fun y => ?_⟩
  rintro ⟨r, t, hrun', hr, -⟩
  obtain ⟨t', hrun⟩ := hrun
  rw [hrun] at hrun'
  cases hrun'
  exact absurd (hr.mpr hdots) (by decide)

end Frog.Fs
