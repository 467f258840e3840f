import Frog.Fs.Blocks
import Frog.Fs.EnterNewDir

/-!
# What a failed `sys_mkdir` leaves

`sys_mkdir` with notes on the heap blocks that it has not freed, and the state after a failure
against the one before the call.
-/

namespace Frog.Fs

set_option autoImplicit false
open Bytes Prog

/-! ## The parent directory -/

/-- The directory of the parent path, or `none` when there is none. -/
def openParent (parentPath : Name) : M (Option Nat) :=
  if parentPath = [slash] then pure (some rootDir)
  else do
    match (← searchFileWithPathname parentPath).1 with
    | none => pure none
    | some inodeNr =>
      let d ← dirOpen inodeNr
      pure (some d)

def makeDirIn (lastName : Name) : Option Nat → M Bool
  | none => pure false
  | some pdir => do
    match ← searchFile pdir lastName with
    | some _ => pure false
    | none => makeDir pdir lastName

theorem sysMkdir_opens (pathname : Name) :
    sysMkdir pathname = (do
      if !(← sysMalloc 1024) then pure false
      else
        match ← copyPath pathname with
        | none => pure false
        | some tmpPath =>
          let r ← pathPeel tmpPath
          let pdir ← openParent r.1
          makeDirIn r.2 pdir : M Bool) := by
  unfold sysMkdir
  congr 1
  funext ok
  cases ok with
  | false => rfl
  | true =>
    simp only [Bool.not_true, Bool.false_eq_true, if_false]
    congr 1
    funext tmp
    cases tmp with
    | none => rfl
    | some tmp =>
      simp only
      congr 1
      funext r
      unfold openParent
      by_cases hroot : r.1 = [slash]
      · rw [if_pos hroot, if_pos hroot]
        rfl
      · rw [if_neg hroot, if_neg hroot, bind_assoc]
        congr 1
        funext found
        obtain ⟨found, pdir⟩ := found
        cases found with
        | none => rfl
        | some nr =>
          simp only [bind_assoc]
          rfl

/-! ## The notes -/

namespace H

def makeDir (pdir : Nat) (lastName : Name) : H Bool := do
  let r ← watch (enterNewDir pdir lastName)
  dirClose pdir
  pure r

def openParent (parentPath : Name) : H (Option Nat) :=
  if parentPath = [slash] then pure (some rootDir)
  else do
    match (← searchFileWithPathname parentPath).1 with
    | none => pure none
    | some inodeNr =>
      let d ← dirOpen inodeNr
      pure (some d)

/-- A new directory leaves the copy of the path allocated, anything else frees both blocks. -/
def makeDirIn (lastName : Name) : Option Nat → H Bool
  | none => do
    note fun live => live - 2
    pure false
  | some pdir => do
    match ← watch (searchFile pdir lastName) with
    | some _ =>
      note fun live => live - 2
      pure false
    | none =>
      let r ← makeDir pdir lastName
      note fun live => if r then live - 1 else live - 2
      pure r

def sysMkdir (pathname : Name) : H Bool := do
  if !(← allocate 1024) then pure false
  else
    match ← watch (copyPath pathname) with
    | none =>
      freed
      pure false
    | some tmpPath =>
      note fun live => live + 1
      let r ← watch (pathPeel tmpPath)
      let pdir ← openParent r.1
      makeDirIn r.2 pdir

theorem makeDir_watches (pdir : Nat) (lastName : Name) :
    Watches (makeDir pdir lastName) (Fs.makeDir pdir lastName) := by
  rw [makeDir_closes]
  exact (Watches.watch _).bind fun r => (dirClose_watches pdir).bind fun _ => .pure r

theorem openParent_watches (parentPath : Name) :
    Watches (openParent parentPath) (Fs.openParent parentPath) := by
  refine .ite (fun _ => .pure _) fun _ => (search_watches parentPath).bind fun r => ?_
  obtain ⟨found, pdir⟩ := r
  cases found with
  | none => exact .pure _
  | some nr => exact (dirOpen_watches nr).bind fun d => .pure _

theorem makeDirIn_watches (lastName : Name) (pdir : Option Nat) :
    Watches (makeDirIn lastName pdir) (Fs.makeDirIn lastName pdir) := by
  cases pdir with
  | none => exact .note_bind (.pure _)
  | some d =>
    refine (Watches.watch _).bind fun found => ?_
    cases found with
    | some nr => exact .note_bind (.pure _)
    | none =>
      intro s k
      obtain ⟨k', hk⟩ := makeDir_watches d lastName s k
      show ∃ k', (makeDir d lastName >>= _) (s, k) = withNotes k' (Fs.makeDir d lastName s)
      rw [bind_apply, hk]
      cases Fs.makeDir d lastName s with
      | error e => exact ⟨k', rfl⟩
      | ok r => exact ⟨_, rfl⟩

/-- Without its notes the call is `sys_mkdir`. -/
theorem sysMkdir_watches (pathname : Name) :
    Watches (sysMkdir pathname) (Fs.sysMkdir pathname) := by
  rw [sysMkdir_opens]
  refine (allocate_watches 1024).bind fun ok => .ite (fun _ => .pure _) fun _ => ?_
  refine (Watches.watch _).bind fun tmp => ?_
  cases tmp with
  | none => exact .note_bind (.pure _)
  | some tmp =>
    refine .note_bind ((Watches.watch _).bind fun r => ?_)
    exact (openParent_watches r.1).bind fun pdir => makeDirIn_watches r.2 pdir

end H

/-! ## Closing the parent directory -/

section Close
variable {s t : State} {d p : Nat} {x : Inode}

/-- The state after the in-core inode at `p` is closed. -/
def State.closed (s : State) (p : Nat) (x : Inode) : State :=
  if (x.iCount + 65535) % 65536 = 0 then
    { s with openInodes := s.openInodes.erase p, inodes := Function.update s.inodes p none }
  else s.putInode p (some { x with iCount := (x.iCount + 65535) % 65536 })

theorem inodeClose_ok (hx : s.inodes p = some x) (h : inodeClose p s = .ok ((), t)) :
    t = s.closed p x := by
  unfold inodeClose at h
  rw [bind_ok (inodeAt_some hx)] at h
  unfold State.closed
  by_cases hc : (x.iCount + 65535) % 65536 = 0
  · rw [if_pos hc]
    simp only [hc, if_true] at h
    rw [bind_ok (get_apply s)] at h
    obtain ⟨_, s₁, hcheck, hrest⟩ := bind_eq_ok.mp h
    cases (check_eq_ok.mp hcheck).2
    cases hrest
    rfl
  · rw [if_neg hc]
    simp only [hc, if_false] at h
    cases h
    rfl

theorem dirClose_ok (hd : d ≠ rootDir) (h : DirAt s d p x) (hrun : dirClose d s = .ok ((), t)) :
    t = (s.closed p x).putDir d none := by
  unfold dirClose at hrun
  rw [if_neg hd, bind_ok (dirInode_some h.1)] at hrun
  obtain ⟨_, s₁, hclose, hfree⟩ := bind_eq_ok.mp hrun
  rw [inodeClose_ok h.2 hclose] at hfree
  exact (congrArg Prod.snd (Except.ok.inj hfree)).symm

/-- The disk and the zone bitmap are not touched. -/
theorem dirClose_disk (hrun : dirClose d s = .ok ((), t)) :
    t.disk = s.disk ∧ t.zoneBitmap = s.zoneBitmap := by
  unfold dirClose at hrun
  by_cases hd : d = rootDir
  · rw [if_pos hd] at hrun
    cases hrun
    exact ⟨rfl, rfl⟩
  · rw [if_neg hd] at hrun
    obtain ⟨p, s₁, hp, hrun⟩ := bind_eq_ok.mp hrun
    obtain ⟨_, s₂, hclose, hfree⟩ := bind_eq_ok.mp hrun
    obtain ⟨-, rfl⟩ := dirInode_ok hp
    obtain ⟨x, s₃, hx, -⟩ := bind_eq_ok.mp hclose
    rw [inodeClose_ok (inodeAt_ok hx).1 hclose] at hfree
    have ht : _ = t := congrArg Prod.snd (Except.ok.inj hfree)
    rw [← ht]
    unfold State.closed
    split <;> exact ⟨rfl, rfl⟩

end Close

/-! ## What should stay as it is -/

/-- Both bitmaps in memory and on the disk with the inode table, every directory, the open inodes
with their counts, and the open directories. -/
structure Untouched (s t : State) : Prop where
  zoneBitmap : t.zoneBitmap = s.zoneBitmap
  inodeBitmap : t.inodeBitmap = s.inodeBitmap
  front : ∀ lba, lba < s.sb.sDataStartLba → sectorAt t.disk lba = sectorAt s.disk lba
  entries : ∀ x, HoldsZones s x → ∀ k i, liveAt t.disk x k i = liveAt s.disk x k i
  openInodes : t.openInodes = s.openInodes
  counts : ∀ p ∈ s.openInodes, t.inodes p = s.inodes p
  dirs : t.dirs = s.dirs

/-- A name in the root is that of the inode. -/
def NamedInRoot (s : State) (nr : Nat) : Prop :=
  ∃ q y name, DirAt s rootDir q y ∧ nameIn s.disk y name = some nr

/-- The bitmaps cover their areas, and the root and every inode with a name in it, in memory or not,
have zones that are in use. -/
structure TreeOk (s : State) : Prop where
  layout : Layout s.sb
  map : ZoneMapOk s
  fresh : s.Fresh
  root : ∀ q y, DirAt s rootDir q y → HoldsZones s y
  loaded : ∀ nr p x, NamedInRoot s nr → inCore s nr = some p → s.inodes p = some x → HoldsZones s x
  stored : ∀ nr, NamedInRoot s nr → inCore s nr = none → HoldsZones s (storedInode s nr)

/-- The parent path and the last name, or `none` without memory. -/
def mkdirNames (pathname : Name) : M (Option (Name × Name)) := do
  if !(← sysMalloc 1024) then pure none
  else
    match ← copyPath pathname with
    | none => pure none
    | some tmpPath =>
      let r ← pathPeel tmpPath
      pure (some r)

/-- The parent is not in memory and has no count on the disk, and the name is not in it. -/
structure CleanParent (s : State) (nr : Nat) (lastName : Name) : Prop where
  absent : inCore s nr = none
  count : (storedInode s nr).iCount = 0
  missing : nameIn s.disk (storedInode s nr) lastName = none
  marked : MarkedBefore s (storedInode s nr)

/-- The parent is the root, where a name that is there already is no obstacle, or the path to it has
one directory at most. -/
def CleanUnder (s : State) (parentPath lastName : Name) : Prop :=
  if parentPath = [slash] then
    ∀ p x, DirAt s rootDir p x → nameIn s.disk x lastName = none → MarkedBefore s x
  else
    ∀ name dirs v, pathNames parentPath s = .ok (some (name, dirs), v) → dirs.length ≤ 1 ∧
      ∀ p x nr, DirAt s rootDir p x → nameIn s.disk x name = some nr → CleanParent s nr lastName

/-- There is no memory for the path, or its parent is one under which a failure leaves nothing. -/
def FailsCleanly (s : State) (pathname : Name) : Prop :=
  ∀ parentPath lastName v, mkdirNames pathname s = .ok (some (parentPath, lastName), v) →
    CleanUnder v parentPath lastName

section Untouched
variable {s t u : State} {d p nr : Nat} {x : Inode}

theorem Restored.part {π : Type} (h : Restored s t) (f : State → π) :
    f t.sansDisk = f s.sansDisk := by
  rw [h.rest]

theorem SameSectors.entries (h : SameSectors s t) (hz : HoldsZones s x) (k i : Nat) :
    liveAt t.disk x k i = liveAt s.disk x k i := by
  have hzone : zoneOf t.disk x k = zoneOf s.disk x k :=
    zoneOf_congr (fun _ _ => rfl) (fun hx => h.used _ (hz.table hx).1 (hz.used.table hx)) k
  by_cases h0 : zoneOf s.disk x k = 0
  · rw [liveAt_unallocated h0, liveAt_unallocated (hzone.trans h0)]
  · exact liveAt_congr hzone (dirSlot_congr i hzone (h.used _ (hz.data k h0).1 (hz.used.zone k h0)))

theorem Restored.untouched (h : Restored s t) : Untouched s t where
  zoneBitmap := h.part State.zoneBitmap
  inodeBitmap := h.part State.inodeBitmap
  front := h.sectors.front
  entries _ hz := h.sectors.entries hz
  openInodes := h.part State.openInodes
  counts p _ := congrFun (h.part State.inodes) p
  dirs := h.part State.dirs

theorem Untouched.not_changed (h : MapsChanged s t) : ¬ Untouched s t := by
  intro hu
  rcases h with hz | ⟨lba, hlba, hne⟩
  · exact hz hu.zoneBitmap
  · exact hne (hu.front lba hlba)

/-- Only an inode of the table is loaded. -/
theorem inodeOpen_lt (hnone : inCore s nr = none) (h : inodeOpen nr s = .ok (p, t)) :
    nr < s.sb.sNinodes := by
  unfold inodeOpen at h
  rw [bind_ok (get_apply s)] at h
  obtain ⟨r, s₁, hfind, h⟩ := bind_eq_ok.mp h
  obtain ⟨hr, rfl⟩ := findOpenInode_ok hfind
  cases hr.trans hnone
  obtain ⟨pos, s₂, hpos, -⟩ := bind_eq_ok.mp h
  unfold localeInode at hpos
  rw [bind_ok (get_apply s₁)] at hpos
  obtain ⟨_, s₃, hcheck, -⟩ := bind_eq_ok.mp hpos
  exact (check_eq_ok.mp hcheck).1

/-- What is opened is an inode in core or one that is loaded. -/
theorem dirOpen_state (h : dirOpen nr s = .ok (d, t)) :
    (∃ p e, inCore s nr = some p ∧ d = s.next ∧
      t = { s.putDir d (some ⟨some p, 0, fun _ => 0⟩) with env := e, next := s.next + 1 }) ∨
    (inCore s nr = none ∧ nr < s.sb.sNinodes ∧ d = s.next + 1 ∧ ∃ e, t =
      { (s.loaded nr e).putDir d (some ⟨some s.next, 0, fun _ => 0⟩) with
        next := s.next + 2 }) := by
  obtain ⟨_, s₁, hm, hrest⟩ := bind_eq_ok.mp h
  obtain ⟨p, s₂, hopen, hnew⟩ := bind_eq_ok.mp hrest
  have henv : OnlyEnv s s₁ := mustMalloc_env _ _ _ _ hm
  cases hnew
  rw [henv.eq] at hopen
  rcases inodeOpen_ok hopen with ⟨hin, rfl⟩ | ⟨hnone, rfl, e, rfl⟩
  · exact .inl ⟨p, _, hin, rfl, rfl⟩
  · exact .inr ⟨hnone, inodeOpen_lt (s := { s with env := s₁.env }) hnone hopen, rfl, e, rfl⟩

theorem findIn_mem {inodes : Nat → Option Inode} {ps : List Nat}
    (h : findIn inodes nr ps = some p) : p ∈ ps := by
  induction ps with
  | nil => cases h
  | cons q ps ih =>
    unfold findIn at h
    obtain ⟨x, -, h⟩ := Option.bind_eq_some_iff.mp h
    by_cases hnr : x.iNum = nr
    · rw [if_pos hnr] at h
      cases h
      exact List.mem_cons_self
    · rw [if_neg hnr] at h
      exact List.mem_cons_of_mem q (ih h)

/-- An inode that was in core before has lost a reference. -/
theorem closed_inCore (hin : inCore s nr = some p) (hx : s.inodes p = some x)
    (hopen : u.openInodes = s.openInodes) : ¬ Untouched s ((u.closed p x).putDir d none) := by
  intro h
  have hmem : p ∈ s.openInodes := findIn_mem hin
  by_cases hc : (x.iCount + 65535) % 65536 = 0
  · have hlist := h.openInodes
    unfold State.closed at hlist
    rw [if_pos hc] at hlist
    have hlen := congrArg List.length hlist
    simp only [hopen] at hlen
    rw [List.length_erase_of_mem hmem] at hlen
    have := List.length_pos_of_mem hmem
    omega
  · have hcount := h.counts p hmem
    unfold State.closed at hcount
    rw [if_neg hc] at hcount
    simp only [Function.update_self, hx, Option.some.injEq] at hcount
    have := congrArg Inode.iCount hcount
    simp only at this
    omega

/-- The state after an inode is loaded for a directory. -/
abbrev State.opening (s : State) (nr : Nat) (e : Env) : State :=
  { (s.loaded nr e).putDir (s.next + 1) (some ⟨some s.next, 0, fun _ => 0⟩) with
    next := s.next + 2 }

/-- The inode as it is counted once it is loaded. -/
def counted (x : Inode) : Inode := { x with iCount := (x.iCount + 1) % 65536 }

theorem counted_close (h : x.iCount < 65536) :
    ((counted x).iCount + 65535) % 65536 = 0 ↔ x.iCount = 0 := by
  simp only [counted]
  omega

/-- A loaded inode is gone again if the disk held no count for it. -/
theorem closed_loaded {e : Env} (hf : s.Fresh) (h : Restored (s.opening nr e) u) :
    Untouched s ((u.closed s.next (counted (storedInode s nr))).putDir (s.next + 1) none) ↔
      (storedInode s nr).iCount = 0 := by
  have hlist : u.openInodes = s.next :: s.openInodes := h.part State.openInodes
  have hinodes : u.inodes = Function.update s.inodes s.next (some (counted (storedInode s nr))) :=
    h.part State.inodes
  have hdirs : u.dirs = Function.update s.dirs (s.next + 1) (some ⟨some s.next, 0, fun _ => 0⟩) :=
    h.part State.dirs
  rw [← counted_close (le16_lt _ _)]
  unfold State.closed
  constructor
  · intro ht
    by_contra hc
    rw [if_neg hc] at ht
    have hlen := congrArg List.length (hlist.symm.trans ht.openInodes)
    simp only [List.length_cons] at hlen
    omega
  · intro hc
    rw [if_pos hc]
    refine ⟨h.part State.zoneBitmap, h.part State.inodeBitmap, h.sectors.front, fun x hz => ?_, ?_,
      fun p hp => ?_, ?_⟩
    · exact h.sectors.entries ⟨⟨hz.used.zone, hz.used.table⟩, hz.data, hz.table⟩
    · show u.openInodes.erase s.next = s.openInodes
      rw [hlist, List.erase_cons_head]
    · have hlt := hf.openInodes p hp
      show Function.update u.inodes s.next none p = s.inodes p
      rw [hinodes, Function.update_idem, Function.update_of_ne (by omega)]
    · show Function.update u.dirs (s.next + 1) none = s.dirs
      rw [hdirs, Function.update_idem, ← hf.dirs (s.next + 1) (by omega), Function.update_eq_self]

end Untouched

/-! ## The call -/

section Call
variable {s t : State} {d p k k' : Nat} {x : Inode} {name : Name}

/-- How an attempt ends before the parent is closed. -/
def Attempted (s u : State) (x : Inode) : Prop :=
  Restored s u ∧ MarkedBefore s x ∨ MapsChanged s u ∧ ¬ MarkedBefore s x

theorem Attempted.of_env {s₁ u : State} (h : OnlyEnv s s₁) (ha : Attempted s₁ u x) :
    Attempted s u x := by
  rw [h.eq] at ha
  rcases ha with ⟨hr, hmark⟩ | ⟨hc, hmark⟩
  · exact .inl ⟨⟨hr.rest, ⟨hr.sectors.front, hr.sectors.used⟩⟩, hmark⟩
  · exact .inr ⟨hc, hmark⟩

theorem HoldsZones.of_env (h : OnlyEnv s t) (hz : HoldsZones s x) : HoldsZones t x := by
  rw [h.eq]
  exact ⟨⟨hz.used.zone, hz.used.table⟩, hz.data, hz.table⟩

theorem ZoneMapOk.of_env (h : OnlyEnv s t) (hm : ZoneMapOk s) : ZoneMapOk t := by
  rw [h.eq]
  exact ⟨hm.len, hm.pad⟩

theorem DirAt.of_env (h : OnlyEnv s t) (hd : DirAt s d p x) : DirAt t d p x := by
  rw [h.eq]
  exact hd

/-- A name that is there is met before anything is taken. -/
theorem makeDirIn_failed (hl : Layout s.sb) (hm : ZoneMapOk s) (hd : DirAt s d p x)
    (hz : HoldsZones s x) (h : H.makeDirIn name (some d) (s, k) = .ok (false, (t, k'))) :
    (nameIn s.disk x name ≠ none ∧ OnlyEnv s t ∧ k' = k - 2) ∨
      (nameIn s.disk x name = none ∧ ∃ u j, Attempted s u x ∧
        H.dirClose d (u, k) = .ok ((), (t, j)) ∧ k' = j - 2) := by
  obtain ⟨r, ⟨s₁, k₁⟩, hwatch, hrest⟩ := bind_eq_ok.mp h
  obtain ⟨hsearch, hk⟩ := watch_eq_ok hwatch
  replace hk : k₁ = k := hk
  obtain ⟨hr, henv⟩ := searchFile_ok hd hsearch
  replace henv : OnlyEnv s s₁ := henv
  cases r with
  | some nr =>
    obtain ⟨_, s₂, hnote, hpure⟩ := bind_eq_ok.mp hrest
    cases hnote
    cases hpure
    exact .inl ⟨by rw [← hr]; exact nofun, henv, by rw [hk]⟩
  | none =>
    refine .inr ⟨hr.symm, ?_⟩
    obtain ⟨r, s₂, hmake, hnote⟩ := bind_eq_ok.mp hrest
    obtain ⟨_, s₃, hnote, hpure⟩ := bind_eq_ok.mp hnote
    cases hnote
    cases hpure
    obtain ⟨r, ⟨u, k₂⟩, hwatch, hclose⟩ := bind_eq_ok.mp hmake
    obtain ⟨_, s₄, hclose, hpure⟩ := bind_eq_ok.mp hclose
    cases hpure
    obtain ⟨henter, hk₂⟩ := watch_eq_ok hwatch
    replace hk₂ : k₂ = k := hk₂.trans hk
    have hsb : s₁.sb = s.sb := by rw [henv.eq]
    have ha := wp_ok (wp_enterNewDir (hsb ▸ hl) (hm.of_env henv) (hd.of_env henv) (hz.of_env henv))
      henter rfl
    exact ⟨u, _, Attempted.of_env henv ha, hk₂ ▸ hclose, rfl⟩

theorem H.dirClose_root {j : Nat} (h : H.dirClose rootDir (s, k) = .ok ((), (t, j))) :
    t = s ∧ j = k := by
  unfold H.dirClose at h
  rw [if_pos rfl] at h
  cases h
  exact ⟨rfl, rfl⟩

theorem H.dirClose_other {j : Nat} (hd : d ≠ rootDir)
    (h : H.dirClose d (s, k) = .ok ((), (t, j))) : Fs.dirClose d s = .ok ((), t) ∧ j = k - 1 := by
  unfold H.dirClose at h
  rw [if_neg hd] at h
  obtain ⟨_, ⟨s₁, k₁⟩, hwatch, hnote⟩ := bind_eq_ok.mp h
  cases hnote
  obtain ⟨hclose, hk⟩ := watch_eq_ok hwatch
  replace hk : k₁ = k := hk
  exact ⟨hclose, by rw [hk]⟩

/-- In the root directory. -/
theorem makeDirIn_root (hok : TreeOk s) (hd : DirAt s rootDir p x)
    (h : H.makeDirIn name (some rootDir) (s, k + 2) = .ok (false, (t, k'))) :
    Untouched s t ∧ k' = k ↔ (nameIn s.disk x name = none → MarkedBefore s x) := by
  rcases makeDirIn_failed hok.layout hok.map hd (hok.root p x hd) h with
    ⟨hname, henv, rfl⟩ | ⟨hname, u, j, ha, hclose, rfl⟩
  · exact iff_of_true ⟨(sansDisk_sameSectors henv).untouched, rfl⟩ fun hnone => absurd hnone hname
  · obtain ⟨rfl, rfl⟩ := H.dirClose_root hclose
    rcases ha with ⟨hr, hmark⟩ | ⟨hc, hmark⟩
    · exact iff_of_true ⟨hr.untouched, rfl⟩ fun _ => hmark
    · exact iff_of_false (fun hu => Untouched.not_changed hc hu.1) fun h => hmark (h hname)

/-- In a directory that is closed again. A name that is there leaves its block. -/
theorem makeDirIn_closed (hl : Layout s.sb) (hm : ZoneMapOk s) (hd : DirAt s d p x)
    (hz : HoldsZones s x) (hroot : d ≠ rootDir)
    (h : H.makeDirIn name (some d) (s, k + 3) = .ok (false, (t, k'))) :
    (nameIn s.disk x name ≠ none ∧ k' = k + 1) ∨ (nameIn s.disk x name = none ∧ k' = k ∧
      ((MarkedBefore s x ∧ ∃ u, Restored s u ∧ t = (u.closed p x).putDir d none) ∨
        MapsChanged s t ∧ ¬ MarkedBefore s x)) := by
  rcases makeDirIn_failed hl hm hd hz h with ⟨hname, -, rfl⟩ | ⟨hname, u, j, ha, hclose, rfl⟩
  · exact .inl ⟨hname, rfl⟩
  · obtain ⟨hrun, rfl⟩ := H.dirClose_other hroot hclose
    refine .inr ⟨hname, rfl, ?_⟩
    rcases ha with ⟨hr, hmark⟩ | ⟨hc, hmark⟩
    · refine .inl ⟨hmark, u, hr, dirClose_ok hroot ⟨?_, ?_⟩ hrun⟩
      · rw [← hd.1, show u.dirs = s.dirs from hr.part State.dirs]
      · rw [← hd.2, show u.inodes = s.inodes from hr.part State.inodes]
    · obtain ⟨hdisk, hmap⟩ := dirClose_disk hrun
      refine .inr ⟨?_, hmark⟩
      unfold MapsChanged
      rw [hdisk, hmap]
      exact hc

/-- In a directory that is opened for it. -/
theorem makeDirIn_opened {o : State} {nr : Nat} (hok : TreeOk s) (hnamed : NamedInRoot s nr)
    (hopen : dirOpen nr s = .ok (d, o))
    (h : H.makeDirIn name (some d) (o, k + 3) = .ok (false, (t, k'))) :
    Untouched s t ∧ k' = k ↔ CleanParent s nr name := by
  have hnext : s.next ≠ rootDir := by
    intro h0
    obtain ⟨q, y, -, hroot, -⟩ := hnamed
    have hnone := hok.fresh.dirs rootDir (Nat.le_of_eq h0)
    rw [DirAt, hnone] at hroot
    cases hroot.1
  rcases dirOpen_state hopen with ⟨p, e, hin, rfl, rfl⟩ | ⟨hnone, -, rfl, e, rfl⟩
  · refine iff_of_false ?_ fun hr => by cases hin.symm.trans hr.absent
    rintro ⟨hu, rfl⟩
    obtain ⟨x, hx, -⟩ := findIn_inode hin
    have hhold := hok.loaded nr p x hnamed hin hx
    obtain ⟨-, hk⟩ | ⟨-, -, ⟨-, u, hr, rfl⟩ | ⟨hc, -⟩⟩ := makeDirIn_closed (p := p) (x := x)
      (s := { s.putDir s.next (some ⟨some p, 0, fun _ => 0⟩) with env := e, next := s.next + 1 })
      hok.layout ⟨hok.map.len, hok.map.pad⟩
      ⟨by simp only [Function.update_self, Option.bind_some], hx⟩
      ⟨⟨hhold.used.zone, hhold.used.table⟩, hhold.data, hhold.table⟩ hnext h
    · omega
    · exact closed_inCore (u := u) hin hx (hr.part State.openInodes) hu
    · exact Untouched.not_changed (s := s) hc hu
  · have hhold := hok.stored nr hnamed hnone
    obtain ⟨hname, hk⟩ | ⟨hname, hk, ⟨hmark, u, hr, rfl⟩ | ⟨hc, hmark⟩⟩ := makeDirIn_closed
      (s := s.opening nr e) (p := s.next) (x := counted (storedInode s nr))
      hok.layout ⟨hok.map.len, hok.map.pad⟩
      ⟨by simp only [Function.update_self, Option.bind_some], Function.update_self ..⟩
      ⟨⟨hhold.used.zone, hhold.used.table⟩, hhold.data, hhold.table⟩ (Nat.succ_ne_zero s.next) h
    · exact iff_of_false (fun hu => by omega) fun hr => hname hr.missing
    · rw [and_iff_left hk, closed_loaded hok.fresh hr]
      exact ⟨fun hcount => ⟨hnone, hcount, hname, hmark⟩, CleanParent.count⟩
    · exact iff_of_false (fun hu => Untouched.not_changed (s := s) hc hu.1)
        fun hr => hmark hr.marked

theorem DirAt.inj {q : Nat} {y : Inode} (h : DirAt s d p x) (h' : DirAt s d q y) :
    p = q ∧ x = y := by
  obtain rfl : p = q := Option.some.inj (h.1.symm.trans h'.1)
  exact ⟨rfl, Option.some.inj (h.2.symm.trans h'.2)⟩

theorem TreeOk.of_env (h : OnlyEnv s t) (hok : TreeOk s) : TreeOk t := by
  rw [h.eq]
  refine ⟨hok.layout, ⟨hok.map.len, hok.map.pad⟩, ⟨hok.fresh.dirs, hok.fresh.openInodes⟩,
    fun q y hd => ?_, fun nr p x hnamed hin hx => ?_, fun nr hnamed hnone => ?_⟩
  · obtain ⟨⟨hzone, htable⟩, hdata, hlba⟩ := hok.root q y hd
    exact ⟨⟨hzone, htable⟩, hdata, hlba⟩
  · obtain ⟨⟨hzone, htable⟩, hdata, hlba⟩ := hok.loaded nr p x hnamed hin hx
    exact ⟨⟨hzone, htable⟩, hdata, hlba⟩
  · obtain ⟨⟨hzone, htable⟩, hdata, hlba⟩ := hok.stored nr hnamed hnone
    exact ⟨⟨hzone, htable⟩, hdata, hlba⟩

theorem Untouched.of_env {v : State} (h : OnlyEnv s v) : Untouched v t ↔ Untouched s t := by
  rw [h.eq]
  constructor
  · intro hu
    refine ⟨hu.zoneBitmap, hu.inodeBitmap, hu.front, fun x hz => hu.entries x ?_, hu.openInodes,
      hu.counts, hu.dirs⟩
    exact ⟨⟨hz.used.zone, hz.used.table⟩, hz.data, hz.table⟩
  · intro hu
    refine ⟨hu.zoneBitmap, hu.inodeBitmap, hu.front, fun x hz => hu.entries x ?_, hu.openInodes,
      hu.counts, hu.dirs⟩
    exact ⟨⟨hz.used.zone, hz.used.table⟩, hz.data, hz.table⟩

/-- Three blocks are freed at most. -/
theorem makeDirIn_live {pdir : Option Nat} {r : Bool}
    (h : H.makeDirIn name pdir (s, k) = .ok (r, (t, k'))) : k ≤ k' + 3 := by
  cases pdir with
  | none =>
    cases h
    show k ≤ k - 2 + 3
    omega
  | some d =>
    obtain ⟨found, ⟨s₁, k₁⟩, hwatch, hrest⟩ := bind_eq_ok.mp h
    replace hwatch : k₁ = k := (watch_eq_ok hwatch).2
    cases found with
    | some nr =>
      cases hrest
      show k ≤ k₁ - 2 + 3
      omega
    | none =>
      obtain ⟨made, ⟨s₂, k₂⟩, hmake, hnote⟩ := bind_eq_ok.mp hrest
      obtain ⟨_, ⟨s₃, k₃⟩, henter, hclose⟩ := bind_eq_ok.mp hmake
      obtain ⟨_, ⟨s₄, k₄⟩, hclose, hpure⟩ := bind_eq_ok.mp hclose
      cases hpure
      replace henter : k₃ = k₁ := (watch_eq_ok henter).2
      have hk₂ : k₃ ≤ k₂ + 1 := by
        by_cases hd : d = rootDir
        · rw [hd] at hclose
          have := (H.dirClose_root hclose).2
          omega
        · have := (H.dirClose_other hd hclose).2
          omega
      cases hnote
      show k ≤ (if r then k₂ - 1 else k₂ - 2) + 3
      split <;> omega

/-- A failed call has no memory for the path, or goes on to the parent. -/
theorem sysMkdir_failed {pathname : Name} (h : H.sysMkdir pathname (s, k) = .ok (false, (t, k'))) :
    (∃ v, mkdirNames pathname s = .ok (none, v) ∧ OnlyEnv s t ∧ k' = k) ∨
      ∃ parentPath lastName v,
        mkdirNames pathname s = .ok (some (parentPath, lastName), v) ∧ OnlyEnv s v ∧
          (do
            let pdir ← H.openParent parentPath
            H.makeDirIn lastName pdir : H Bool) (v, k + 2) = .ok (false, (t, k')) := by
  obtain ⟨ok, ⟨s₂, k₂⟩, halloc, hrest⟩ := bind_eq_ok.mp h
  obtain ⟨hm, hk₂⟩ := H.allocate_live halloc
  have henv : OnlyEnv s s₂ := sysMalloc_env _ _ _ _ hm
  cases ok with
  | false =>
    cases hrest
    exact .inl ⟨_, bind_ok hm, henv, hk₂⟩
  | true =>
    obtain ⟨tmp, ⟨s₃, k₃⟩, hcopy, hrest⟩ := bind_eq_ok.mp hrest
    obtain ⟨hcopy, hk₃⟩ := watch_eq_ok hcopy
    replace hk₂ : k₂ = k + 1 := hk₂
    replace hk₃ : k₃ = k + 1 := hk₃.trans hk₂
    have henv₃ : OnlyEnv s s₃ := IsTrans.trans _ _ _ henv (copyPath_env _ _ _ _ hcopy)
    subst hk₃
    cases tmp with
    | none =>
      cases hrest
      exact .inl ⟨s₃, (bind_ok hm).trans (bind_ok hcopy), henv₃, rfl⟩
    | some tmp =>
      obtain ⟨_, s₄, hnote, hrest⟩ := bind_eq_ok.mp hrest
      cases hnote
      obtain ⟨⟨parentPath, lastName⟩, ⟨v, k₅⟩, hpeel, hrest⟩ := bind_eq_ok.mp hrest
      obtain ⟨hpeel, hk₅⟩ := watch_eq_ok hpeel
      replace hk₅ : k₅ = k + 2 := hk₅
      subst hk₅
      exact .inr ⟨parentPath, lastName, v,
        (bind_ok hm).trans ((bind_ok hcopy).trans (bind_ok hpeel)),
        IsTrans.trans _ _ _ henv₃ (pathPeel_env _ _ _ _ hpeel), hrest⟩

theorem cleanUnder_root {lastName : Name} (hd : DirAt s rootDir p x) :
    CleanUnder s [slash] lastName ↔ (nameIn s.disk x lastName = none → MarkedBefore s x) := by
  unfold CleanUnder
  rw [if_pos rfl]
  refine ⟨fun hall => hall p x hd, fun hmark p' x' hd' hnone => ?_⟩
  obtain ⟨rfl, rfl⟩ := hd.inj hd'
  exact hmark hnone

/-- The names of the parent path are those that are read from it. -/
theorem cleanUnder_other {parentPath dirName lastName : Name} {dirs : List Name} {v : State}
    (hslash : parentPath ≠ [slash])
    (hnames : pathNames parentPath s = .ok (some (dirName, dirs), v))
    (hlen : dirs.length ≤ 1) (hd : DirAt s rootDir p x) :
    CleanUnder s parentPath lastName ↔
      ∀ nr, nameIn s.disk x dirName = some nr → CleanParent s nr lastName := by
  unfold CleanUnder
  rw [if_neg hslash]
  refine ⟨fun hall nr => (hall dirName dirs v hnames).2 p x nr hd, fun hclean name dirs' w hw => ?_⟩
  rw [hnames] at hw
  cases hw
  refine ⟨hlen, fun p' x' nr hd' => ?_⟩
  obtain ⟨rfl, rfl⟩ := hd.inj hd'
  exact hclean nr

theorem CleanParent.of_env {nr : Nat} {lastName : Name} (h : OnlyEnv s t) :
    CleanParent t nr lastName ↔ CleanParent s nr lastName := by
  rw [h.eq]
  exact ⟨fun hc => ⟨hc.absent, hc.count, hc.missing, hc.marked⟩,
    fun hc => ⟨hc.absent, hc.count, hc.missing, hc.marked⟩⟩

theorem openParent_failed {parentPath lastName : Name} (hok : TreeOk s) (h : (do
      let pdir ← H.openParent parentPath
      H.makeDirIn lastName pdir : H Bool) (s, k + 2) = .ok (false, (t, k'))) :
    Untouched s t ∧ k' = k ↔ CleanUnder s parentPath lastName := by
  unfold H.openParent at h
  by_cases hslash : parentPath = [slash]
  · rw [if_pos hslash] at h
    rw [hslash]
    replace h : H.makeDirIn lastName (some rootDir) (s, k + 2) = .ok (false, (t, k')) := h
    obtain ⟨p, x, hd⟩ : ∃ p x, DirAt s rootDir p x := by
      obtain ⟨r, s₁, hsearch, -⟩ := bind_eq_ok.mp h
      exact dirAt_of_search (watch_eq_ok hsearch).1
    rw [makeDirIn_root hok hd h, cleanUnder_root hd]
  · rw [if_neg hslash, bind_assoc] at h
    obtain ⟨⟨found, pdir⟩, ⟨u, k₁⟩, hsearch, hrest⟩ := bind_eq_ok.mp h
    obtain ⟨names, v, hnames, henv, hcase⟩ := H.search_live hsearch
    cases names with
    | none =>
      obtain ⟨rfl, rfl, rfl⟩ := hcase
      cases hrest
      refine iff_of_true ⟨(sansDisk_sameSectors henv).untouched, rfl⟩ ?_
      unfold CleanUnder
      rw [if_neg hslash]
      intro name dirs w hw
      rw [hnames] at hw
      cases hw
    | some names =>
      obtain ⟨dirName, dirs⟩ := names
      obtain ⟨hshort, hlong⟩ := hcase
      by_cases hlen : dirs.length ≤ 1
      · obtain ⟨rfl, henv', q, y, hroot, hfound⟩ := hshort hlen
        have hsame : OnlyEnv s u := IsTrans.trans _ _ _ henv henv'
        have hroot : DirAt s rootDir q y := by rwa [henv.eq] at hroot
        replace hfound : found = nameIn s.disk y dirName := by
          rw [henv.eq] at hfound
          exact hfound
        rw [cleanUnder_other hslash hnames hlen hroot, ← hfound]
        cases found with
        | none =>
          cases hrest
          exact iff_of_true ⟨(sansDisk_sameSectors hsame).untouched, rfl⟩ nofun
        | some nr =>
          obtain ⟨pdir', s₁, hopen, hmake⟩ := bind_eq_ok.mp hrest
          replace hopen : (H.dirOpen nr >>= fun d => pure (some d) : H _) (u, k + 2) =
            .ok (pdir', s₁) := hopen
          obtain ⟨d, ⟨o, k₂⟩, hdir, hpure⟩ := bind_eq_ok.mp hopen
          cases hpure
          obtain ⟨hrun, rfl⟩ := H.dirOpen_live hdir
          have hokay : TreeOk u := hok.of_env hsame
          have hnamed : NamedInRoot u nr :=
            ⟨q, y, dirName, hroot.of_env hsame, by rw [hsame.eq]; exact hfound.symm⟩
          rw [← Untouched.of_env hsame, makeDirIn_opened hokay hnamed hrun hmake,
            CleanParent.of_env hsame]
          refine ⟨fun hclean nr' hnr => ?_, fun hall => hall nr rfl⟩
          cases hnr
          exact hclean
      · have hmore := hlong (by omega)
        unfold CleanUnder
        rw [if_neg hslash]
        refine iff_of_false (fun hu => ?_) fun hall => hlen (hall dirName dirs v hnames).1
        obtain ⟨pdir', ⟨o, k₂⟩, hopen, hmake⟩ := bind_eq_ok.mp hrest
        have hlive := makeDirIn_live hmake
        cases found with
        | none =>
          cases hopen
          cases hmake
          have hk : k₁ - 2 = k := hu.2
          omega
        | some nr =>
          replace hopen : (H.dirOpen nr >>= fun d => pure (some d) : H _) (u, k₁) =
            .ok (pdir', o, k₂) := hopen
          obtain ⟨d, s₂, hdir, hpure⟩ := bind_eq_ok.mp hopen
          cases hpure
          have hk := (H.dirOpen_live hdir).2
          omega

/-- A failed call leaves all as it was just in these cases. -/
theorem failed_mkdir_exact {pathname : Name} (hok : TreeOk s)
    (h : H.sysMkdir pathname (s, k) = .ok (false, (t, k'))) :
    Untouched s t ∧ k' = k ↔ FailsCleanly s pathname := by
  rcases sysMkdir_failed h with
    ⟨v, hnames, henv, rfl⟩ | ⟨parentPath, lastName, v, hnames, henv, hrun⟩
  · refine iff_of_true ⟨(sansDisk_sameSectors henv).untouched, rfl⟩ ?_
    intro parentPath lastName u hu
    rw [hnames] at hu
    cases hu
  · rw [← Untouched.of_env henv, openParent_failed (hok.of_env henv) hrun]
    refine ⟨fun hclean parentPath' lastName' u hu => ?_, fun hall => hall _ _ _ hnames⟩
    rw [hnames] at hu
    cases hu
    exact hclean

end Call

/-! ## In a small tree -/

theorem HoldsZones.single {s : State} {x : Inode} {lba : Nat}
    (hzone : ∀ k, k < 13 → x.iZones k = if k = 0 then lba else 0) (hdata : InData s.sb lba)
    (hused : s.zoneBitmap.getValue (lba - s.sb.sDataStartLba) = true) : HoldsZones s x := by
  have htable : x.iZones 12 = 0 := hzone 12 (by decide)
  have hone : ∀ k, zoneOf s.disk x k ≠ 0 → zoneOf s.disk x k = lba := by
    intro k hk
    by_cases hdirect : k < 12
    · rw [zoneOf_direct hdirect, hzone k (by omega)] at hk ⊢
      split at hk
      · rw [if_pos ‹_›]
      · exact absurd rfl hk
    · refine absurd ?_ hk
      unfold zoneOf zoneArray
      rw [if_neg hdirect]
      split
      · exact le32_zero fun _ _ => by rw [tableOf, if_pos htable]
      · rfl
  exact ⟨⟨fun k hk => by rwa [hone k hk], fun h => absurd htable h⟩, fun k hk => by rwa [hone k hk],
    fun h => absurd htable h⟩

theorem searchEntry_number {name : Name} {e : DirEntry} {nr : Nat}
    (h : searchEntry name e = some (some nr)) :
    (strEq e.filename dot || strEq e.filename dotDot) = false ∧ ¬ (e.iNo = 0 ∧ e.fType = 0) ∧
      e.iNo = nr := by
  unfold searchEntry orMinusOne at h
  split_ifs at h with h1 h2 h3 h4
  · cases h
  · cases h
  · exact ⟨Bool.eq_false_iff.mpr h1, h2, Option.some.inj (Option.some.inj h)⟩

/-- The only name in the root is that of the directory 1, and an empty entry follows. -/
theorem rootWithChild_names {name : Name} {nr : Nat}
    (h : nameIn rootWithChild.disk { zoneDir with iNum := 0, iSize := 72 } name = some nr) :
    nr = 1 := by
  have hentries : ∀ i, i < perSector →
      (strEq (entryAt (sectors rootWithChild.disk 900 1) i).filename dot ||
        strEq (entryAt (sectors rootWithChild.disk 900 1) i).filename dotDot) = false →
      ¬ ((entryAt (sectors rootWithChild.disk 900 1) i).iNo = 0 ∧
        (entryAt (sectors rootWithChild.disk 900 1) i).fType = 0) →
      (entryAt (sectors rootWithChild.disk 900 1) i).iNo = 1 := by
    decide +kernel
  have hlast : searchEntry name (entryAt (sectors rootWithChild.disk 900 1) 3) = some none := by
    unfold searchEntry
    rw [if_neg (by decide +kernel), if_pos (by decide +kernel)]
  have hzone : zoneOf rootWithChild.disk { zoneDir with iNum := 0, iSize := 72 } 0 = 900 := rfl
  unfold nameIn nameFrom at h
  rw [hzone] at h
  cases hs : searchSector name (sectors rootWithChild.disk 900 1) with
  | none =>
    have hall := List.findSome?_eq_none_iff.mp hs 3 (List.mem_range.mpr (by decide))
    cases hlast.symm.trans hall
  | some r =>
    rw [hs] at h
    obtain rfl : r = some nr := h
    obtain ⟨i, hi, hentry⟩ := List.exists_of_findSome?_eq_some hs
    obtain ⟨hdots, hused, rfl⟩ := searchEntry_number hentry
    exact hentries i (List.mem_range.mp hi) hdots hused

theorem rootWithChild_root :
    DirAt rootWithChild rootDir 1 { zoneDir with iNum := 0, iSize := 72 } :=
  ⟨by decide, rfl⟩

theorem rootWithChild_named {nr : Nat} (h : NamedInRoot rootWithChild nr) : nr = 1 := by
  obtain ⟨q, y, name, hd, hname⟩ := h
  obtain ⟨rfl, rfl⟩ := hd.inj rootWithChild_root
  exact rootWithChild_names hname

theorem rootWithChild_ok : TreeOk rootWithChild where
  layout := layout_small
  map := by
    refine ⟨show 512 = 512 * (formatBlock 0 4000).sZmapSz by decide +kernel, fun b hb _ => ?_⟩
    have hz : 4096 * rootWithChild.sb.sZmapSz + rootWithChild.sb.sDataStartLba ≤ maxLba := by
      decide +kernel
    omega
  fresh := rootWithChild_fresh
  root q y hd := by
    obtain ⟨rfl, rfl⟩ := hd.inj rootWithChild_root
    exact HoldsZones.single (by decide +kernel) inData_900 (by decide +kernel)
  loaded nr p x hnamed hin _ := by
    rw [rootWithChild_named hnamed] at hin
    have hnone : inCore rootWithChild 1 = none := by decide +kernel
    cases hnone.symm.trans hin
  stored nr hnamed _ := by
    rw [rootWithChild_named hnamed]
    have hdata : InData rootWithChild.sb 901 := by
      unfold InData
      decide +kernel
    exact HoldsZones.single (by decide +kernel) hdata (by decide +kernel)

/-- The directory is there already, in the root. -/
theorem failed_mkdir_exact_child : ∃ t k',
    H.sysMkdir [slash, 97#8, slash] (rootWithChild, 0) = .ok (false, (t, k')) ∧
      (Untouched rootWithChild t ∧ k' = 0 ↔ FailsCleanly rootWithChild [slash, 97#8, slash]) := by
  obtain ⟨⟨t, k'⟩, hrun⟩ : ∃ u,
      H.sysMkdir [slash, 97#8, slash] (rootWithChild, 0) = .ok (false, u) :=
    ok_of_result (by decide +kernel)
  exact ⟨t, k', hrun, failed_mkdir_exact rootWithChild_ok hrun⟩

/-- The parent is missing under a directory that is found: the walk leaves two blocks, and the
directory's inode open. -/
theorem missing_parent_leaves : TreeOk rootWithChild ∧ ∃ t,
    H.sysMkdir [slash, 97#8, slash, 98#8, slash, 99#8, slash] (rootWithChild, 0) =
      .ok (false, (t, 2)) ∧ ¬ Untouched rootWithChild t := by
  have hresult : (H.sysMkdir [slash, 97#8, slash, 98#8, slash, 99#8, slash] (rootWithChild, 0)).map
      (fun r => (r.1, r.2.1.openInodes.length, r.2.2)) = .ok (false, 2, 2) := by
    decide +kernel
  obtain ⟨made, ⟨t, k⟩, hrun, hleft⟩ := ok_of_map hresult
  simp only [Prod.mk.injEq] at hleft
  obtain ⟨rfl, hopen, rfl⟩ := hleft
  refine ⟨rootWithChild_ok, t, hrun, fun h => ?_⟩
  rw [h.openInodes] at hopen
  cases hopen

end Frog.Fs
