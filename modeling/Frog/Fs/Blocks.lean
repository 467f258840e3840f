import Frog.Fs.Walk
import Frog.Lib.Watch

/-!
# Heap blocks

Calls on paths with notes on the blocks that they have not freed. Functions that free all they take
are watched as a whole, and in-core inodes are in the state.
-/

namespace Frog.Fs

set_option autoImplicit false
open Bytes Prog

/-- The notes count the blocks of the call. -/
abbrev H (α : Type) : Type := Watched Stop State Nat α

namespace H

/-! ## The calls -/

def allocate (size : Nat) : H Bool := do
  let ok ← watch (sysMalloc size)
  note fun live => if ok then live + 1 else live
  pure ok

def freed : H Unit := note fun live => live - 1

def dirOpen (inodeNr : Nat) : H Nat := do
  let d ← watch (Fs.dirOpen inodeNr)
  note fun live => live + 1
  pure d

def dirClose (d : Nat) : H Unit :=
  if d = rootDir then pure ()
  else do
    watch (Fs.dirClose d)
    freed

def walkDirs (isFile : Bool) : Nat → List Name → H Walk
  | d, [] => pure (.inside d)
  | d, name :: names => do
    match ← watch (searchFile d name) with
    | none => pure .missing
    | some inodeNr =>
      let next ← dirOpen inodeNr
      if names = [] ∧ isFile = false then
        let prev ← watch (dirAt d)
        pure (.target inodeNr prev)
      else walkDirs isFile next names

/-- The block of `dirs_path` is counted once it is filled. -/
def searchFileWithPathname (pathname : Name) : H (Option Nat × Option Dir) := do
  match ← watch (pathNames pathname) with
  | none => pure (none, none)
  | some (lastName, dirs) =>
    note fun live => live + 1
    if dirs.length ≤ 1 then
      match ← watch (searchFile rootDir lastName) with
      | none =>
        freed
        pure (none, none)
      | some inodeNr =>
        freed
        let root ← watch (dirAt rootDir)
        pure (some inodeNr, some root)
    else
      match ← walkDirs (!isDirName pathname) rootDir dirs.reverse with
      | .missing => pure (none, none)
      | .target inodeNr pdir => pure (some inodeNr, some pdir)
      | .inside d =>
        freed
        let r ← watch (searchFile d lastName)
        let dir ← watch (dirAt d)
        pure (r, some dir)

/-! ## Without the notes -/

theorem allocate_watches (size : Nat) : Watches (allocate size) (sysMalloc size) := by
  intro s k
  unfold allocate
  obtain ⟨k', hk⟩ := Watches.watch (sysMalloc size) s k
  rw [bind_apply, hk]
  cases sysMalloc size s with
  | error e => exact ⟨k', rfl⟩
  | ok r => exact ⟨_, rfl⟩

theorem dirOpen_watches (nr : Nat) : Watches (dirOpen nr) (Fs.dirOpen nr) := by
  intro s k
  unfold dirOpen
  obtain ⟨k', hk⟩ := Watches.watch (Fs.dirOpen nr) s k
  rw [bind_apply, hk]
  cases Fs.dirOpen nr s with
  | error e => exact ⟨k', rfl⟩
  | ok r => exact ⟨_, rfl⟩

theorem dirClose_watches (d : Nat) : Watches (dirClose d) (Fs.dirClose d) := by
  unfold dirClose
  by_cases hd : d = rootDir
  · rw [if_pos hd, Fs.dirClose, if_pos hd]
    exact .pure ()
  · rw [if_neg hd]
    intro s k
    obtain ⟨k', hk⟩ := Watches.watch (Fs.dirClose d) s k
    rw [bind_apply, hk]
    cases Fs.dirClose d s with
    | error e => exact ⟨k', rfl⟩
    | ok r => exact ⟨_, rfl⟩

theorem walkDirs_watches (isFile : Bool) (d : Nat) (names : List Name) :
    Watches (walkDirs isFile d names) (Fs.walkDirs isFile d names) := by
  induction names generalizing d with
  | nil => exact .pure _
  | cons name names ih =>
    refine (Watches.watch _).bind fun r => ?_
    cases r with
    | none => exact .pure _
    | some nr =>
      refine (dirOpen_watches nr).bind fun next => .ite (fun _ => ?_) fun _ => ih next
      exact (Watches.watch _).bind fun _ => .pure _

/-- Without its notes the call is `search_file_with_pathname`. -/
theorem search_watches (pathname : Name) :
    Watches (searchFileWithPathname pathname) (Fs.searchFileWithPathname pathname) := by
  rw [funext (searchFileWithPathname_eq pathname)]
  refine (Watches.watch _).bind fun names => ?_
  cases names with
  | none => exact .pure _
  | some names =>
    refine .note_bind (.ite (fun _ => ?_) fun _ => ?_)
    · refine (Watches.watch _).bind fun r => ?_
      cases r with
      | none => exact .note_bind (.pure _)
      | some nr => exact .note_bind ((Watches.watch _).bind fun _ => .pure _)
    · refine (walkDirs_watches _ _ _).bind fun w => ?_
      cases w with
      | missing => exact .pure _
      | target nr pdir => exact .pure _
      | inside d => exact .note_bind ((Watches.watch _).bind fun _ => (Watches.watch _).bind fun _ => .pure _)

/-! ## What a search leaves -/

section Live
variable {s t : State} {k k' : Nat}

theorem allocate_live {size : Nat} {ok : Bool} (h : allocate size (s, k) = .ok (ok, (t, k'))) :
    sysMalloc size s = .ok (ok, t) ∧ k' = if ok then k + 1 else k := by
  obtain ⟨ok', ⟨s₁, k₁⟩, hm, hrest⟩ := bind_eq_ok.mp h
  obtain ⟨hm, hk⟩ := watch_eq_ok hm
  replace hk : k₁ = k := hk
  obtain ⟨u, s₂, hnote, hpure⟩ := bind_eq_ok.mp hrest
  obtain rfl : ok' = ok := congrArg Prod.fst (Except.ok.inj hpure)
  have hlast : s₂ = (t, k') := congrArg Prod.snd (Except.ok.inj hpure)
  have hcount : s₂ = (s₁, if ok' then k₁ + 1 else k₁) :=
    (congrArg Prod.snd (Except.ok.inj hnote)).symm
  cases hlast.symm.trans hcount
  rw [← hk]
  exact ⟨hm, rfl⟩

theorem dirOpen_live {nr d : Nat} (h : dirOpen nr (s, k) = .ok (d, (t, k'))) :
    Fs.dirOpen nr s = .ok (d, t) ∧ k' = k + 1 := by
  obtain ⟨d', s₁, hopen, hrest⟩ := bind_eq_ok.mp h
  obtain ⟨hopen, hk⟩ := watch_eq_ok hopen
  cases hrest
  exact ⟨hopen, congrArg (· + 1) hk⟩

/-- Every directory that is found is one more block. -/
theorem walkDirs_live {isFile : Bool} {names : List Name} {d : Nat} {w : Walk}
    (h : walkDirs isFile d names (s, k) = .ok (w, (t, k'))) :
    k ≤ k' ∧ ∀ e, w = .inside e → k + names.length ≤ k' := by
  induction names generalizing s k d with
  | nil =>
    cases h
    exact ⟨Nat.le_refl _, fun _ _ => Nat.le_refl _⟩
  | cons name names ih =>
    obtain ⟨r, s₁, hsearch, hrest⟩ := bind_eq_ok.mp h
    obtain ⟨-, hk⟩ := watch_eq_ok hsearch
    cases r with
    | none =>
      cases hrest
      exact ⟨Nat.le_of_eq hk.symm, fun e he => by cases he⟩
    | some nr =>
      obtain ⟨next, s₂, hopen, hgo⟩ := bind_eq_ok.mp hrest
      obtain ⟨s₁, k₁⟩ := s₁
      obtain ⟨s₂, k₂⟩ := s₂
      obtain ⟨-, hk₂⟩ := dirOpen_live hopen
      replace hk : k₁ = k := hk
      by_cases hend : names = [] ∧ isFile = false
      · rw [if_pos hend] at hgo
        obtain ⟨prev, s₃, hprev, hpure⟩ := bind_eq_ok.mp hgo
        obtain ⟨-, hk₃⟩ := watch_eq_ok hprev
        cases hpure
        replace hk₃ : k' = k₂ := hk₃
        exact ⟨by omega, fun e he => by cases he⟩
      · rw [if_neg hend] at hgo
        obtain ⟨hle, hinside⟩ := ih hgo
        refine ⟨by omega, fun e he => ?_⟩
        have := hinside e he
        rw [List.length_cons]
        omega

/-- With one name at most, everything is freed; on a longer path `dirs_path` or a directory stays. -/
theorem search_live {pathname : Name} {r : Option Nat × Option Dir}
    (h : searchFileWithPathname pathname (s, k) = .ok (r, (t, k'))) :
    ∃ names v, pathNames pathname s = .ok (names, v) ∧ OnlyEnv s v ∧
      match names with
      | none => r.1 = none ∧ t = v ∧ k' = k
      | some (lastName, dirs) =>
        (dirs.length ≤ 1 → k' = k ∧ OnlyEnv v t ∧ ∃ p x, DirAt v rootDir p x ∧
          r.1 = nameIn v.disk x lastName) ∧ (1 < dirs.length → k < k') := by
  obtain ⟨names, s₁, hnames, hrest⟩ := bind_eq_ok.mp h
  obtain ⟨v, k₁⟩ := s₁
  obtain ⟨hnames, hk⟩ := watch_eq_ok hnames
  replace hk : k₁ = k := hk
  refine ⟨names, v, hnames, pathNames_env _ _ _ _ hnames, ?_⟩
  cases names with
  | none =>
    cases hrest
    exact ⟨rfl, rfl, hk⟩
  | some names =>
    obtain ⟨lastName, dirs⟩ := names
    obtain ⟨u, s₂, hnote, hgo⟩ := bind_eq_ok.mp hrest
    cases hnote
    refine ⟨fun hlen => ?_, fun hlen => ?_⟩
    · rw [if_pos hlen] at hgo
      obtain ⟨found, s₃, hsearch, hend⟩ := bind_eq_ok.mp hgo
      obtain ⟨hsearch, hk₃⟩ := watch_eq_ok hsearch
      obtain ⟨s₃, k₃⟩ := s₃
      replace hk₃ : k₃ = k₁ + 1 := hk₃
      obtain ⟨p, x, hd⟩ := dirAt_of_search hsearch
      obtain ⟨hfound, henv⟩ := searchFile_ok hd hsearch
      cases found with
      | none =>
        cases hend
        exact ⟨show k₃ - 1 = k by omega, henv, p, x, hd, hfound⟩
      | some nr =>
        obtain ⟨u, s₄, hnote, hend⟩ := bind_eq_ok.mp hend
        cases hnote
        obtain ⟨root, s₅, hroot, hpure⟩ := bind_eq_ok.mp hend
        obtain ⟨hroot, hk₅⟩ := watch_eq_ok hroot
        cases hpure
        replace hk₅ : k' = k₃ - 1 := hk₅
        have ht := (dirAt_ok hroot).2
        replace ht : t = s₃ := ht
        rw [ht]
        exact ⟨by omega, henv, p, x, hd, hfound⟩
    · rw [if_neg (by omega)] at hgo
      obtain ⟨w, s₃, hwalk, hend⟩ := bind_eq_ok.mp hgo
      obtain ⟨s₃, k₃⟩ := s₃
      obtain ⟨hle, hinside⟩ := walkDirs_live hwalk
      replace hle : k₁ + 1 ≤ k₃ := hle
      cases w with
      | missing =>
        cases hend
        omega
      | target nr pdir =>
        cases hend
        omega
      | inside d =>
        have hmany := hinside d rfl
        rw [List.length_reverse] at hmany
        replace hmany : k₁ + 1 + dirs.length ≤ k₃ := hmany
        obtain ⟨u, s₄, hnote, hend⟩ := bind_eq_ok.mp hend
        cases hnote
        obtain ⟨found, s₅, hsearch, hend⟩ := bind_eq_ok.mp hend
        obtain ⟨hsearch, hk₅⟩ := watch_eq_ok hsearch
        obtain ⟨dir, s₆, hdir, hpure⟩ := bind_eq_ok.mp hend
        cases hpure
        obtain ⟨hdir, hk₆⟩ := watch_eq_ok hdir
        have hk₇ : k' = k₃ - 1 := hk₆.trans hk₅
        omega

end Live

end H

end Frog.Fs
