import Frog.Descr.PipeExits

/-!
# The standard descriptors

What `sys_read`, `sys_write` and `sys_exit` do with a descriptor, and when a call that opens leaves
that alone for 0, 1 and 2.
-/

namespace Frog.Descr

set_option autoImplicit false
open Prog
open Fs (FileType File Stop maxFileOpen maxFilesOpenPerProc pipeFlag clientMark hasFlag oCreat)

/-! ## What a descriptor is for -/

/-- Where the bytes come from or go to. -/
inductive Does where
  | refused
  | console
  | pipe (f : File)
  | device (f : File) (dev : Nat)
  | client (f : File)
  | server (f : File)
  | file (f : File) (x : Ident)

def isPipe (p fd : Nat) : M Bool := do
  let g ← fdLocal2Global p fd
  let f ← fileAt g
  pure (f.fdFlag == pipeFlag)

def fdIdent (p fd : Nat) : M Ident := do
  let g ← fdLocal2Global p fd
  let f ← fileAt g
  let q ← need f.fdInode .fault
  let x ← inodeAt q
  pure x.ident

def isCharFd (p fd : Nat) : M Bool := do
  let x ← fdIdent p fd
  pure (x.iType == .char)

def isPkgFd (p fd : Nat) : M Bool := do
  let x ← fdIdent p fd
  pure (x.iType == .fifo)

def getFile (p fd : Nat) : M File := do
  let g ← fdLocal2Global p fd
  fileAt g

/-- `package->fd_pos == CLIENT_MARK`. -/
def pkgEnd (f : File) : Does := if f.fdPos = clientMark then .client f else .server f

def sysRead (p : Nat) (fd : Int) : M Does := do
  if fd < 0 then pure .refused
  else if fd = 0 then
    if ← isPipe p 0 then
      let f ← getFile p 0
      pure (.pipe f)
    else pure .refused
  else if fd = 2 then pure .refused
  else if ← isPipe p fd.toNat then
    let f ← getFile p fd.toNat
    pure (.pipe f)
  else if ← isCharFd p fd.toNat then
    let f ← getFile p fd.toNat
    let x ← fdIdent p fd.toNat
    pure (.device f x.iDev)
  else if ← isPkgFd p fd.toNat then
    let f ← getFile p fd.toNat
    pure (pkgEnd f)
  else
    let f ← getFile p fd.toNat
    let x ← fdIdent p fd.toNat
    pure (.file f x)

def sysWrite (p : Nat) (fd : Int) : M Does := do
  if fd < 0 then pure .refused
  else if fd = 1 then
    if ← isPipe p 1 then
      let f ← getFile p 1
      pure (.pipe f)
    else pure .console
  else if ← isPipe p fd.toNat then
    let f ← getFile p fd.toNat
    pure (.pipe f)
  else if ← isCharFd p fd.toNat then
    let f ← getFile p fd.toNat
    let x ← fdIdent p fd.toNat
    pure (.device f x.iDev)
  else if ← isPkgFd p fd.toNat then
    let f ← getFile p fd.toNat
    pure (pkgEnd f)
  else
    let f ← getFile p fd.toNat
    if writes f.fdFlag then
      let x ← fdIdent p fd.toNat
      pure (.file f x)
    else pure .refused

/-- One turn of the last loop in `release_proc_resource`: a pipe is counted down, and `sys_close`
refuses the standard descriptors. -/
def exitFd (p fd : Nat) : M Does := do
  if ← isPipe p fd then
    let f ← getFile p fd
    pure (.pipe f)
  else pure .refused

inductive Use where
  | read
  | write
  | exit

def Use.run (p fd : Nat) : Use → M Does
  | .read => sysRead p fd
  | .write => sysWrite p fd
  | .exit => exitFd p fd

/-- What a use of `fd` by `p` would do. -/
def State.does (s : State) (p fd : Nat) (u : Use) : Except Stop Does :=
  (u.run p fd s).map Prod.fst

/-! ## Two states that agree on a descriptor -/

variable {s0 s t : State} {p c g fd q : Nat} {α β : Type}

/-- A reader gives the same in both states. -/
def Agree (s t : State) (m : M α) : Prop :=
  (∃ a, m s = .ok (a, s) ∧ m t = .ok (a, t)) ∨ ∃ e, m s = .error e ∧ m t = .error e

theorem Agree.pure (a : α) : Agree s t (Pure.pure a) := .inl ⟨a, rfl, rfl⟩

theorem Agree.bind {m : M α} {f : α → M β} (hm : Agree s t m) (hf : ∀ a, Agree s t (f a)) :
    Agree s t (m >>= f) := by
  rcases hm with ⟨a, hs, ht⟩ | ⟨e, hs, ht⟩
  · unfold Agree
    rw [bind_ok hs, bind_ok ht]
    exact hf a
  · exact .inr ⟨e, bind_error hs, bind_error ht⟩

theorem Agree.ite {b : Prop} [Decidable b] {m m' : M α} (h : Agree s t m) (h' : Agree s t m') :
    Agree s t (if b then m else m') := by
  by_cases hb : b
  · rwa [if_pos hb]
  · rwa [if_neg hb]

theorem Agree.map_fst {m : M α} (h : Agree s t m) : (m t).map Prod.fst = (m s).map Prod.fst := by
  rcases h with ⟨a, hs, ht⟩ | ⟨e, hs, ht⟩
  · rw [hs, ht]
    rfl
  · rw [hs, ht]

/-- The descriptor `fd` has the slot of its number, with the same contents in both states. -/
structure SameStd (p fd : Nat) (s t : State) : Prop where
  old : s.tables p fd = some fd
  new : t.tables p fd = some fd
  files : t.files fd = s.files fd
  ident : ∀ q, (s.files fd).fdInode = some q → t.identAt q = s.identAt q

theorem fdLocal2Global_std (hfd : fd < 3) (h : s.tables p fd = some fd) :
    fdLocal2Global p fd s = .ok (fd, s) := by
  have hlt : fd < maxFilesOpenPerProc := hfd.trans (by decide)
  have hlt' : fd < maxFileOpen := hfd.trans (by decide)
  simp [fdLocal2Global, bind_apply, check, need, h, hlt, hlt']

/-- The slot is read through the table. -/
theorem SameStd.bind_slot {m : File → M β} (h : SameStd p fd s t) (hfd : fd < 3)
    (hm : Agree s t (m (s.files fd))) :
    Agree s t (do let g ← fdLocal2Global p fd; let f ← fileAt g; m f) := by
  have hs : (do let g ← fdLocal2Global p fd; let f ← fileAt g; m f) s = m (s.files fd) s :=
    bind_ok (fdLocal2Global_std hfd h.old)
  have ht : (do let g ← fdLocal2Global p fd; let f ← fileAt g; m f) t = m (s.files fd) t := by
    rw [← h.files]
    exact bind_ok (fdLocal2Global_std hfd h.new)
  unfold Agree
  rw [hs, ht]
  exact hm

theorem inodeAt_inode {x : Inode} (h : s.heap q = some (.inode x)) : inodeAt q s = .ok (x, s) := by
  unfold inodeAt
  rw [h]

theorem inodeAt_fault (h : ∀ x, s.heap q ≠ some (.inode x)) : inodeAt q s = .error .fault := by
  unfold inodeAt
  split
  · exact absurd ‹_› (h _)
  · rfl

theorem agree_inodeIdent (h : t.identAt q = s.identAt q) :
    Agree s t (do let x ← inodeAt q; Pure.pure x.ident) := by
  unfold State.identAt at h
  by_cases hs : ∃ x, s.heap q = some (.inode x)
  · obtain ⟨x, hx⟩ := hs
    rw [hx] at h
    obtain ⟨o, ht, ho⟩ := Option.map_eq_some_iff.mp h
    cases o with
    | queue => cases ho
    | inode y =>
      have hident : y.ident = x.ident := Option.some.inj ho
      refine .inl ⟨x.ident, bind_ok (inodeAt_inode hx), ?_⟩
      rw [← hident]
      exact bind_ok (inodeAt_inode ht)
  · have ht : ∀ y, t.heap q ≠ some (.inode y) := by
      intro y hy
      rw [hy] at h
      obtain ⟨o, ho, hi⟩ := Option.map_eq_some_iff.mp h.symm
      cases o with
      | queue => cases hi
      | inode x => exact hs ⟨x, ho⟩
    exact .inr ⟨.fault, bind_error (inodeAt_fault fun x hx => hs ⟨x, hx⟩), bind_error (inodeAt_fault ht)⟩

theorem SameStd.isPipe (h : SameStd p fd s t) (hfd : fd < 3) : Agree s t (isPipe p fd) :=
  h.bind_slot hfd (.pure _)

theorem SameStd.getFile (h : SameStd p fd s t) (hfd : fd < 3) : Agree s t (getFile p fd) :=
  h.bind_slot (m := Pure.pure) hfd (.pure _)

theorem SameStd.fdIdent (h : SameStd p fd s t) (hfd : fd < 3) : Agree s t (fdIdent p fd) := by
  refine h.bind_slot hfd ?_
  cases hq : (s.files fd).fdInode with
  | none => exact .inr ⟨_, rfl, rfl⟩
  | some q => exact agree_inodeIdent (h.ident q hq)

theorem SameStd.isCharFd (h : SameStd p fd s t) (hfd : fd < 3) : Agree s t (isCharFd p fd) :=
  (h.fdIdent hfd).bind fun _ => .pure _

theorem SameStd.isPkgFd (h : SameStd p fd s t) (hfd : fd < 3) : Agree s t (isPkgFd p fd) :=
  (h.fdIdent hfd).bind fun _ => .pure _

theorem SameStd.sysRead (h : SameStd p fd s t) (hfd : fd < 3) : Agree s t (sysRead p fd) := by
  unfold Descr.sysRead
  rw [Int.toNat_natCast]
  refine .ite (.pure _) ?_
  by_cases h0 : fd = 0
  · subst h0
    rw [if_pos Nat.cast_zero]
    exact (h.isPipe hfd).bind fun _ => .ite ((h.getFile hfd).bind fun _ => .pure _) (.pure _)
  · rw [if_neg (by omega)]
    refine .ite (.pure _) ((h.isPipe hfd).bind fun _ => .ite ((h.getFile hfd).bind fun _ => .pure _) ?_)
    refine (h.isCharFd hfd).bind fun _ => .ite ((h.getFile hfd).bind fun _ =>
      (h.fdIdent hfd).bind fun _ => .pure _) ?_
    refine (h.isPkgFd hfd).bind fun _ => .ite ((h.getFile hfd).bind fun _ => .pure _) ?_
    exact (h.getFile hfd).bind fun _ => (h.fdIdent hfd).bind fun _ => .pure _

theorem SameStd.sysWrite (h : SameStd p fd s t) (hfd : fd < 3) : Agree s t (sysWrite p fd) := by
  unfold Descr.sysWrite
  rw [Int.toNat_natCast]
  refine .ite (.pure _) ?_
  by_cases h1 : fd = 1
  · subst h1
    rw [if_pos Nat.cast_one]
    exact (h.isPipe hfd).bind fun _ => .ite ((h.getFile hfd).bind fun _ => .pure _) (.pure _)
  · rw [if_neg (by omega)]
    refine (h.isPipe hfd).bind fun _ => .ite ((h.getFile hfd).bind fun _ => .pure _) ?_
    refine (h.isCharFd hfd).bind fun _ => .ite ((h.getFile hfd).bind fun _ =>
      (h.fdIdent hfd).bind fun _ => .pure _) ?_
    refine (h.isPkgFd hfd).bind fun _ => .ite ((h.getFile hfd).bind fun _ => .pure _) ?_
    refine (h.getFile hfd).bind fun _ => .ite ?_ (.pure _)
    exact (h.fdIdent hfd).bind fun _ => .pure _

theorem SameStd.does (h : SameStd p fd s t) (hfd : fd < 3) (u : Use) : t.does p fd u = s.does p fd u := by
  have hrun : Agree s t (u.run p fd) := by
    cases u with
    | read => exact h.sysRead hfd
    | write => exact h.sysWrite hfd
    | exit => exact (h.isPipe hfd).bind fun _ => .ite ((h.getFile hfd).bind fun _ => .pure _) (.pure _)
  exact hrun.map_fst

end Frog.Descr
