import Frog.Fs.Blocks

/-!
# The current directory

`sys_getcwd` with the two functions it climbs with, and with notes on the heap blocks that it has not
freed. The path grows from the inner directory outwards and is then turned around slash by slash.
-/

namespace Frog.Fs

set_option autoImplicit false
open Bytes Prog

/-! ## Climbing -/

/-- A parent's number is below 4096, so it is never the -1 that the caller tests for. -/
def getParentDirInodeNr (childdirInodeNr : Nat) : M Nat := do
  let p ← inodeOpen childdirInodeNr
  let x ← inodeAt p
  let s ← get
  check (s.sb.sDataStartLba ≤ x.iZones 0) .panic
  inodeClose p
  let buf ← ideRead (x.iZones 0) 1
  let dotdot := entryAt buf 1
  check (dotdot.iNo < 4096 ∧ dotdot.fType = FileType.directory.code) .panic
  pure dotdot.iNo

/-- The name of an entry, which its number ends if it fills its field. -/
def entryName (e : DirEntry) : Name := ((List.range 24).map e.toBytes).takeWhile (· ≠ 0)

def childInSector (buf : Store) (childInodeNr : Nat) : Option DirEntry :=
  ((List.range perSector).map (entryAt buf)).find? fun e => e.iNo == childInodeNr

def childInZones (zones : Nat → Nat) (childInodeNr : Nat) : Nat → Nat → M (Option DirEntry)
  | 0, _ => pure none
  | left + 1, i =>
    if zones i = 0 then childInZones zones childInodeNr left (i + 1)
    else do
      let buf ← ideRead (zones i) 1
      match childInSector buf childInodeNr with
      | some e => pure (some e)
      | none => childInZones zones childInodeNr left (i + 1)

/-- `none` is -1. The path has 1024 bytes. -/
def getChildDirName (parentInodeNr childInodeNr : Nat) (path : Name) : M (Option Name) := do
  let p ← inodeOpen parentInodeNr
  let x ← inodeAt p
  let zones ← inodeAllZones x
  inodeClose p
  match ← childInZones zones childInodeNr 140 0 with
  | none => pure none
  | some e =>
    let path := path ++ slash :: entryName e
    check (path.length < 1024) .fault
    pure (some path)

/-- How the climb ends: not yet, with a name that is not found, or at the root. -/
inductive Climb where
  | running | failed | done (path : Name)

def climb : Nat → Nat → Name → M Climb
  | 0, _, _ => pure .running
  | fuel + 1, cwdInodeNr, path =>
    if cwdInodeNr = 0 then pure (.done path)
    else do
      let parentInodeNr ← getParentDirInodeNr cwdInodeNr
      match ← getChildDirName parentInodeNr cwdInodeNr path with
      | none => pure .failed
      | some path => climb fuel parentInodeNr path

/-! ## `sys_getcwd` -/

def strrchr (path : Name) (c : Byte) : Option Nat :=
  (List.range path.length).reverse.find? fun i => path.getD i 0 == c

/-- From the last slash on, each part goes behind the buffer's string and is cut off the path. -/
def turnAround : Nat → Name → Name → Name
  | 0, _, buf => buf
  | left + 1, path, buf =>
    match strrchr path slash with
    | none => buf
    | some k => turnAround left (path.take k) (buf ++ path.drop k)

/-- What a call returns, the buffer or a null pointer, and the string in the buffer. -/
structure Getcwd where
  isBuf : Bool
  buf : Name
  deriving DecidableEq

/-- `none` while the climb goes on. At the root the block is not freed, and elsewhere the end of the
function returns 0. -/
def sysGetcwd (size fuel : Nat) : H (Option Getcwd) := do
  if !(← H.allocate 512) then pure (some ⟨false, []⟩)
  else
    let s ← get
    if s.1.cwdInodeNr = 0 then pure (some ⟨true, [slash]⟩)
    else
      match ← watch (climb fuel s.1.cwdInodeNr []) with
      | .running => pure none
      | .failed =>
        H.freed
        pure (some ⟨false, []⟩)
      | .done path =>
        watch (check (path.length ≤ size) .panic)
        watch (check (path.length < size) .fault)
        H.freed
        pure (some ⟨false, turnAround path.length path []⟩)

/-! ## What a call should do -/

/-- How many references an inode counts, none if it is not in memory. -/
def openCount (s : State) (inodeNr : Nat) : Nat :=
  ((s.openInodes.filterMap s.inodes).find? fun x => x.iNum == inodeNr).elim 0 Inode.iCount

/-- The call returns the buffer with a path that leads to the current directory, with every block
freed and the inodes open as before. -/
def TellsCwd (s : State) (size fuel : Nat) : Prop :=
  ∃ path t, sysGetcwd size fuel (s, 0) = .ok (some ⟨true, path⟩, (t, 0)) ∧
    (∃ pdir u, searchFileWithPathname path t = .ok ((some s.cwdInodeNr, pdir), u)) ∧
    ∀ inodeNr, openCount t inodeNr = openCount s inodeNr

section Never
variable {s : State} {size fuel : Nat}

/-- Only at the root is the buffer returned, and a block is left there. -/
theorem wp_sysGetcwd : wp (fun _ => True) (sysGetcwd size fuel)
    (fun r t => ∀ path, r = some ⟨true, path⟩ → t.2 ≠ 0) (s, 0) := by
  have hnull : ∀ {t : State × Nat} {buf : Name} (path : Name),
      some (Getcwd.mk false buf) = some ⟨true, path⟩ → t.2 ≠ 0 := by
    intro t buf path h
    cases h
  unfold sysGetcwd H.allocate
  rw [wp_bind, wp_bind, wp_watch, wp_sysMalloc (by omega)]
  cases hm : s.env.malloc 0 with
  | false => exact hnull
  | true =>
    simp only [wp_bind, wp_note, wp_pure, wp_get, wp_ite, Bool.not_true, Bool.false_eq_true,
      false_implies, not_false_eq_true, if_true, true_implies, true_and]
    refine ⟨fun _ path _ => Nat.one_ne_zero, fun _ => ?_⟩
    refine wp_always fun c t => ?_
    cases c with
    | running => exact fun path h => by cases h
    | failed => exact hnull
    | done path =>
      rw [wp_bind, wp_watch, wp_check]
      refine ⟨fun _ => ?_, fun _ => trivial⟩
      rw [wp_bind, wp_watch, wp_check]
      exact ⟨fun _ => hnull, fun _ => trivial⟩

/-- In no state, behind `sys_chdir` or not, does a call do what it should. -/
theorem getcwd_never (s : State) (size fuel : Nat) : ¬ TellsCwd s size fuel := by
  rintro ⟨path, t, hrun, -, -⟩
  exact wp_ok wp_sysGetcwd hrun path rfl rfl

end Never

def chdirGetcwd (pathname : Name) (size fuel : Nat) : H (Bool × Option Getcwd) := do
  let moved ← watch (sysChdir pathname)
  let cwd ← sysGetcwd size fuel
  pure (moved, cwd)

/-- The name's own slash is turned to the front, and the caller gets a null pointer. -/
theorem getcwd_null : ∃ s t,
    sysChdir [slash, 97#8, slash] rootWithChild = .ok (true, s) ∧
      sysGetcwd 100 2 (s, 0) = .ok (some ⟨false, [slash, slash, 97#8]⟩, t) ∧
      ¬ TellsCwd s 100 2 := by
  have hresult : (chdirGetcwd [slash, 97#8, slash] 100 2 (rootWithChild, 0)).map Prod.fst =
      .ok (true, some ⟨false, [slash, slash, 97#8]⟩) := by
    decide +kernel
  obtain ⟨t, hrun⟩ := ok_of_result hresult
  obtain ⟨moved, u, hwatch, hrest⟩ := bind_eq_ok.mp hrun
  obtain ⟨cwd, v, hcwd, hpure⟩ := bind_eq_ok.mp hrest
  cases hpure
  rcases u with ⟨s, n⟩
  obtain ⟨hcd, hn⟩ := watch_eq_ok hwatch
  replace hn : n = 0 := hn
  subst hn
  refine ⟨s, t, hcd, hcwd, fun h => ?_⟩
  obtain ⟨path, w, htells, -⟩ := h
  rw [hcwd] at htells
  cases htells

end Frog.Fs
