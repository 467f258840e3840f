import Frog.Descr.WriterCalls

/-!
# One writer for each file

Runs of `sys_open`, `sys_close`, `sys_read` and `sys_write`, and the condition under which a file has one
writer in all of them.
-/

namespace Frog.Descr

set_option autoImplicit false
open Prog
open Fs (FileType File Stop maxFileOpen maxFilesOpenPerProc pipeFlag hasFlag oCreat clearedFile)

/-- What `sys_read` and `sys_write` leave as the position comes with the call. -/
inductive FileCall where
  | open (p : Nat) (w : Lookup) (flags : Nat) (u : Supply)
  | close (p : Nat) (fd : Int)
  | read (p : Nat) (fd : Int) (pos : Nat)
  | write (p : Nat) (fd : Int) (pos : Nat)

/-- `file_read` and `file_write` move the position of the slot. -/
def moveTo (p : Nat) (fd : Int) (pos : Nat) : Does → M Unit
  | .file _ _ => do
    let g ← fdLocal2Global p fd.toNat
    let f ← fileAt g
    setFile g { f with fdPos := pos }
  | _ => pure ()

def doFileCall : FileCall → M Unit
  | .open p w flags u => do
    let _ ← sysOpen p w flags u
  | .close p fd => do
    let _ ← sysClose p fd
  | .read p fd pos => do
    let a ← sysRead p fd
    moveTo p fd pos a
  | .write p fd pos => do
    let a ← sysWrite p fd
    moveTo p fd pos a

/-- `flush_inode` writes `i_lock` as 0, the type of an inode never changes, and a new inode has a number
that no inode in use has. -/
structure DiskOk (s : State) (w : Lookup) (u : Supply) : Prop where
  unlocked : ∀ nr, (w.disk nr).iLock = false
  typed : ∀ q ∈ s.openInodes, ∀ x, s.heap q = some (.inode x) → x.iType = (w.disk x.iNum).iType
  number : ∀ nr, u.number = some nr → nr ∉ w.dirs ∧
    ∀ q ∈ s.openInodes, ∀ x, s.heap q = some (.inode x) → x.iNum ≠ nr

/-- The flags are 8 bits wide. -/
def FileCall.Enabled (s : State) : FileCall → Prop
  | .open p w flags u => p ∈ s.live ∧ flags < 256 ∧ DiskOk s w u
  | .close p _ | .read p _ _ | .write p _ _ => p ∈ s.live

def FileCall.Step (s : State) (e : FileCall) (t : State) : Prop :=
  e.Enabled s ∧ doFileCall e s = .ok ((), t)

/-- Some slot holds the inode at `q`. -/
def Holds (s : State) (q : Nat) : Prop := ∃ g, (s.files g).fdInode = some q

/-- The walk of `sys_open` closes no inode that a slot holds for the last time. A file that is there is
opened for writing only if nobody writes to it and it has a lock, and a file is made only with a slot
that is not for writing. What is closed has no writer in another slot, and is not freed under one. -/
def Exclusive (s : State) : FileCall → Prop
  | .open _ w flags u => Affords (Holds s) s (closedDirs w flags) ∧
    match w.target with
    | .lost => True
    | .absent pkg => hasFlag flags oCreat = true → u.complete = true → ∀ g, freeSlot s = some g →
        writes (if pkg then (s.files g).fdFlag else flags) = false
    | .found nr => hasFlag flags oCreat = false → MayWrite s w.disk nr flags
  | .close p fd => 2 < fd → ∀ g q x, s.tables p fd.toNat = some g → (s.files g).fdInode = some q →
      s.heap q = some (.inode x) → ∀ g', g' ≠ g → (s.files g').fdInode = some q →
        writes (s.files g').fdFlag = false ∧ x.iCount ≠ 1
  | .read _ _ _ | .write _ _ _ => True

/-! ## `sys_open` -/

variable {s0 s t u v : State} {p g fd q nr flags : Nat} {G G' : Nat → FileType → Prop} {x y : Inode}
  {disk : Nat → Inode} {P : Nat → Prop}

theorem WInv.relist (h : WInv G s)
    (hG : ∀ q ∈ s.openInodes, ∀ x, s.heap q = some (.inode x) → G' x.iNum x.iType) : WInv G' s := by
  refine { h with listed := fun q hq => ?_ }
  obtain ⟨x, hx, -⟩ := h.listed q hq
  exact ⟨x, hx, hG q hq x hx⟩

/-- After a file was made, its directory is closed. -/
theorem WInv.closeNew {d : Option Nat} {pend : List Nat} (hv : WInv G v) (ho : Opened P p s v)
    (hheap : ∀ q, (t.heap q).isSome = true → v.heap q = t.heap q)
    (hfills : ∀ g, (s.files g).fdInode = none → ∀ q, (v.files g).fdInode = some q → t.heap q = none)
    (hP : ∀ g q, (s.files g).fdInode = some q → P q) (hd : At t d pend) (ha : Affords P t pend) :
    wp Any (Descr.dirClose d) (fun _ w => WInv G w) v := by
  cases d with
  | none => exact hv
  | some q =>
    obtain ⟨hmem, x, hx, rfl⟩ := hd
    have hx' : v.heap q = some (.inode x) := (hheap q (Option.isSome_of_eq_some hx)).trans hx
    refine wp_mono (hv.inodeClose hx' fun hz g hg => ?_) fun _ _ h => h.1
    cases hs : (s.files g).fdInode with
    | none => exact nomatch (hfills g hs q hg).symm.trans hx
    | some r =>
      have hsame := ho.files g (Option.isSome_of_eq_some hs)
      have hrq : r = q := Option.some.inj (hs.symm.trans (hsame ▸ hg))
      have hle := ha q x (hP g q (hrq ▸ hs)) hx hmem
      rw [hz, List.count_singleton_self] at hle
      exact absurd hle (Nat.not_succ_le_zero 0)

theorem freeSlot_congr (h : t.files = s.files) : freeSlot t = freeSlot s := by
  unfold freeSlot
  rw [h]

theorem WInv.makeFile {w : Supply} {d : Option Nat} {pend : List Nat} {pkg : Bool}
    (h : WInv (fun n _ => w.number ≠ some n) t) (hw : Walked P s t)
    (hP : ∀ g q, (s.files g).fdInode = some q → P q) (hd : At t d pend) (ha : Affords P t pend)
    (hp : flags ≠ pipeFlag)
    (hr : w.complete = true → ∀ g, freeSlot s = some g →
      writes (if pkg then (s.files g).fdFlag else flags) = false) :
    wp Any (if pkg then openPkgServer p w else fileCreate p flags w)
      (fun _ v => wp Any (Descr.dirClose d) (fun _ v' => WInv (fun _ _ => True) v') v) t := by
  have h0 : WInv (fun _ _ => True) t := h.mono fun _ _ _ => trivial
  have hnum : ∀ nr, w.number = some nr → True ∧
      ∀ r ∈ t.openInodes, ∀ y, t.heap r = some (.inode y) → y.iNum ≠ nr := by
    refine fun nr hnr => ⟨trivial, fun r hr' y hy hne => ?_⟩
    obtain ⟨z, hz, hG⟩ := h.listed r hr'
    cases hy.symm.trans hz
    exact hG (hne ▸ hnr)
  have hfin : ∀ (r : Option Nat) (v : State), Made P p s t r v → WInv (fun _ _ => True) v →
      ∀ g, r = some g → wp Any (Descr.installThreadFd p (some g))
        (fun _ w => wp Any (Descr.dirClose d) (fun _ w' => WInv (fun _ _ => True) w') w) v := by
    rintro _ v hm hv g rfl
    refine wp_mono (wp_both hm.install hv.installThreadFd) ?_
    rintro _ w' ⟨⟨ho, hfiles, hheap⟩, hw'⟩
    exact hw'.closeNew ho (hheap ▸ hm.heap) (hfiles ▸ hm.fills) hP hd ha
  rw [wp_ite]
  refine ⟨fun hpkg => ?_, fun hpkg => ?_⟩
  · simp only [openPkgServer, wp_bind]
    refine wp_mono (wp_both (wp_create (p := p) hw fun _ => Nat.two_pow_pos 32)
      (h0.create rfl hnum (fun _ hf => hf) fun hc g hg => ?_)) ?_
    · rw [freeSlot_congr hw.files] at hg
      rw [hw.files]
      simpa [hpkg] using hr hc g hg
    · rintro (_ | g) v ⟨hm, hv⟩
      · exact wp_installNone fun _ => hv.closeNew hm.opened hm.heap hm.fills hP hd ha
      · exact hfin _ v hm hv g rfl
  · simp only [fileCreate, wp_bind]
    refine wp_mono (wp_both (wp_create (p := p) hw fun _ => Nat.two_pow_pos 32)
      (h0.create rfl hnum (fun _ _ => hp) fun hc g hg => ?_)) ?_
    · rw [freeSlot_congr hw.files] at hg
      simpa [hpkg] using hr hc g hg
    · rintro (_ | g) v ⟨hm, hv⟩
      · exact hv.closeNew hm.opened hm.heap hm.fills hP hd ha
      · exact hfin _ v hm hv g rfl

theorem NoWriter.walked (h : NoWriter s nr) (hs : WInv G s) (hw : Walked (Holds s) s t) :
    NoWriter t nr := by
  intro g q x hg hx hn
  have hg' : Writer s g q := by
    unfold Writer at hg ⊢
    rwa [hw.files] at hg
  obtain ⟨z, hz⟩ := hs.held g q hg'.1
  have hident := hw.kept q ⟨g, hg'.1⟩
  rw [State.identAt, State.identAt, hx, hz] at hident
  have hnum : x.iNum = z.iNum := congrArg Ident.iNum (Option.some.inj (Option.some.inj hident))
  exact h g q z hg' hz (hnum.symm.trans hn)

theorem WInv.sysOpen {w : Lookup} {c : Supply} (h : WInv (fun _ _ => True) s) (hp : flags < 256)
    (hd : DiskOk s w c) (he : Exclusive s (.open p w flags c)) :
    wp Any (sysOpen p w flags c) (fun _ t => WInv (fun _ _ => True) t) s := by
  obtain ⟨ha, hr⟩ := he
  have hflag : flags ≠ pipeFlag := fun hf => absurd (hf ▸ hp) (by decide)
  have halive : ∀ q, Holds s q → (s.heap q).isSome = true := by
    rintro q ⟨g, hg⟩
    obtain ⟨x, hx⟩ := h.held g q hg
    exact Option.isSome_of_eq_some hx
  have hholds : ∀ g q, (s.files g).fdInode = some q → Holds s q := fun g q hg => ⟨g, hg⟩
  have hroot : At s none [] := rfl
  -- the number of a new file is not met on the way
  have hnew : Affords (Holds s) s w.dirs → wp Any (Descr.openWalk w.disk none w.dirs) (fun d t =>
      WInv (fun n _ => c.number ≠ some n) t ∧ Walked (Holds s) s t ∧
        ∃ pend, At t d pend ∧ Affords (Holds s) t pend) s := by
    intro ha
    have hs : WInv (fun n _ => c.number ≠ some n) s := h.relist fun q hq x hx hn =>
      (hd.number x.iNum hn).2 q hq x hx rfl
    refine hs.openWalk (f := id) (fun _ _ _ => rfl) (fun nr hnr => ⟨hd.unlocked nr, fun hn => ?_⟩)
      halive hholds hroot ha
    exact (hd.number nr hn).1 hnr
  have hclose : ∀ d t pend, WInv (fun n _ => c.number ≠ some n) t → Walked (Holds s) s t →
      At t d pend → Affords (Holds s) t pend →
      wp Any (Descr.dirClose d) (fun _ v => WInv (fun _ _ => True) v) t := by
    intro d t pend ht hw hat hp
    have hP : ∀ g q, (t.files g).fdInode = some q → Holds s q := fun g q hg => hholds g q (hw.files ▸ hg)
    rw [← List.append_nil pend] at hp
    exact wp_mono (ht.dirClose hP hat hp) fun _ v hv => hv.mono fun _ _ _ => trivial
  unfold closedDirs at ha
  simp only [Descr.sysOpen, wp_bind]
  cases htarget : w.target with
  | lost =>
    rw [htarget] at ha
    refine wp_mono (hnew ha) ?_
    rintro d t ⟨ht, hw, pend, hat, hp⟩
    refine wp_searchFile ?_
    simp only [wp_bind, wp_pure]
    exact hclose d t pend ht hw hat hp
  | absent pkg =>
    rw [htarget] at ha hr
    refine wp_mono (hnew ha) ?_
    rintro d t ⟨ht, hw, pend, hat, hp⟩
    refine wp_searchFile ?_
    simp only [wp_ite, wp_bind, wp_pure]
    refine ⟨fun hc => ?_, fun _ => hclose d t pend ht hw hat hp⟩
    have hmake := ht.makeFile (p := p) hw hholds hat hp hflag (hr hc)
    rwa [wp_ite] at hmake
  | found nr =>
    rw [htarget] at ha hr
    cases hc : hasFlag flags oCreat with
    | true =>
      simp only [hc, if_true] at ha
      refine wp_mono (hnew ha) ?_
      rintro d t ⟨ht, hw, pend, hat, hp⟩
      refine wp_searchFile ?_
      simp only [if_true, wp_bind, wp_pure]
      exact hclose d t pend ht hw hat hp
    | false =>
      simp only [hc, Bool.false_eq_true, if_false] at ha
      have hs : WInv (Typed w.disk) s := h.relist fun q hq x hx => hd.typed q hq x hx
      refine wp_mono (hs.openWalk (f := List.dropLast) (fun _ _ _ => rfl)
        (fun nr _ => ⟨hd.unlocked nr, rfl⟩) halive hholds hroot ha) ?_
      rintro d t ⟨ht, hw, -⟩
      refine wp_searchFile ?_
      simp only [Bool.false_eq_true, if_false]
      refine wp_mono (ht.openExisting (hd.unlocked nr) (fun hfree hwr => ?_) hflag) fun _ v hv =>
        hv.mono fun _ _ _ => trivial
      have hfree' : SlotFree s := by
        unfold SlotFree
        rwa [← hw.files]
      exact (hr hc hfree' hwr).imp_right fun h' => h'.imp_right fun h' => h'.walked h hw

/-! ## `sys_close` and the others -/

/-- What a slot holds and its lock, once it is closed. -/
theorem WInv.fileClose (h : WInv G s)
    (hx : ∀ q x, (s.files g).fdInode = some q → s.heap q = some (.inode x) → ∀ g', g' ≠ g →
      (s.files g').fdInode = some q → writes (s.files g').fdFlag = false ∧ x.iCount ≠ 1) :
    wp Any (fileClose g) (fun _ t => WInv G t) s := by
  simp only [Descr.fileClose, wp_bind, wp_fileAt, wp_need, wp_inodeAt, wp_setInode, wp_setFile,
    implies_true, and_true]
  intro q hq x hxq
  have hfree : WInv G ((s.setFile g { s.files g with fdInode := none }).setObj q
      (some (.inode { x with iLock := false }))) := by
    refine h.rewrite hxq (by simp) (h.flag g) (fun r hr => Option.some.inj (hr.symm.trans hq)) (by simp)
      (fun g' hg' hw => ?_) (iff_of_false (by simp) (by simp))
    exact absurd ((hx q x hq hxq g' hg' hw.1).1.symm.trans hw.2) (by decide)
  have hx' : (s.setObj q (some (.inode { x with iLock := false }))).heap q =
      some (.inode { x with iLock := false }) := Function.update_self ..
  unfold Descr.inodeClose
  simp only [wp_bind, wp_of_ok (inodeAt_inode hx'), wp_ite, wp_get, wp_check, wp_modify, wp_freeObj,
    wp_setInode, implies_true, and_true]
  -- the slot may as well be cleared first
  refine ⟨fun hz _ => hfree.drop fun g' hg' => ?_, fun _ => hfree.recount hx'⟩
  replace hg' : ((s.setFile g { s.files g with fdInode := none }).files g').fdInode = some q := hg'
  rw [setFile_files] at hg'
  split at hg'
  · cases hg'
  · rename_i hgg
    have hone := (hx q x hq hxq g' hgg hg').2
    have hz' : dec16 x.iCount = 0 := hz
    unfold dec16 at hz'
    split at hz' <;> omega

theorem WInv.sysClose {fd : Int} (h : WInv G s) (he : Exclusive s (.close p fd)) :
    wp Any (sysClose p fd) (fun _ t => WInv G t) s := by
  simp only [Descr.sysClose, fdLocal2Global, wp_ite, wp_bind, wp_get, wp_check, wp_need, wp_pure,
    wp_fileAt, wp_inodeAt, wp_setEntry, implies_true, and_true]
  refine ⟨fun _ => h, fun hfd _ g hg _ => ⟨fun hf => absurd hf (h.flag g), fun _ q hq x hx => ?_⟩⟩
  have hlt : 2 < fd := by omega
  refine wp_mono (h.fileClose fun q' x' hq' hx' => he hlt g q' x' hg hq' hx') fun _ t ht => ?_
  exact ⟨fun _ => ht, fun _ => ht.entry⟩

/-- A position is written. -/
theorem WInv.move (h : WInv G s) {pos : Nat} :
    WInv G (s.setFile g { s.files g with fdPos := pos }) := by
  have hsame : ∀ g', ((s.setFile g { s.files g with fdPos := pos }).files g').fdInode =
      (s.files g').fdInode ∧ ((s.setFile g { s.files g with fdPos := pos }).files g').fdFlag =
        (s.files g').fdFlag := by
    intro g'
    rw [setFile_files]
    split
    · rename_i hg
      rw [hg]
      exact ⟨rfl, rfl⟩
    · exact ⟨rfl, rfl⟩
  have hwriter : ∀ g' q, Writer (s.setFile g { s.files g with fdPos := pos }) g' q ↔ Writer s g' q := by
    intro g' q
    unfold Writer
    rw [(hsame g').1, (hsame g').2]
  refine ⟨h.fresh, h.nodup, h.listed, h.inj, fun g' q hg => h.held g' q ((hsame g').1 ▸ hg),
    fun g' q hg => h.writer g' q ((hwriter g' q).mp hg), fun g' => (hsame g').2 ▸ h.flag g',
    fun g' g'' q hg hg' => h.one g' g'' q ((hwriter g' q).mp hg) ((hwriter g'' q).mp hg'), fun q x hx => ?_⟩
  simp only [hwriter]
  exact h.lock q x hx

theorem WInv.moveTo {fd : Int} {pos : Nat} {a : Does} (h : WInv G s) :
    wp Any (moveTo p fd pos a) (fun _ t => WInv G t) s := by
  cases a with
  | file f x =>
    simp only [Descr.moveTo, fdLocal2Global, wp_bind, wp_get, wp_check, wp_need, wp_pure, wp_fileAt,
      wp_setFile, implies_true, and_true]
    exact fun _ g _ _ => h.move
  | _ => exact h

section Readers

variable {α β : Type}

/-- The program changes nothing. -/
def Reads (m : M α) : Prop := ∀ s, wp Any m (fun _ t => t = s) s

theorem Reads.pure (a : α) : Reads (Pure.pure a : M α) := fun _ => rfl

theorem Reads.bind {m : M α} {f : α → M β} (hm : Reads m) (hf : ∀ a, Reads (f a)) : Reads (m >>= f) := by
  intro s
  rw [wp_bind]
  refine wp_mono (hm s) ?_
  rintro a _ rfl
  exact hf a _

theorem Reads.ite {c : Prop} [Decidable c] {m m' : M α} (h : Reads m) (h' : Reads m') :
    Reads (if c then m else m') := by
  by_cases hc : c
  · rwa [if_pos hc]
  · rwa [if_neg hc]

theorem reads_local2Global : Reads (fdLocal2Global p fd) := by
  intro s
  simp [fdLocal2Global, Any]

theorem reads_getFile : Reads (getFile p fd) := .bind reads_local2Global fun _ _ => rfl

theorem reads_isPipe : Reads (isPipe p fd) := .bind reads_local2Global fun _ _ => rfl

theorem reads_fdIdent : Reads (fdIdent p fd) := by
  refine .bind reads_local2Global fun g s => ?_
  simp [Any]

theorem reads_isCharFd : Reads (isCharFd p fd) := .bind reads_fdIdent fun _ => .pure _

theorem reads_isPkgFd : Reads (isPkgFd p fd) := .bind reads_fdIdent fun _ => .pure _

theorem reads_file {f : File → M α} (hf : ∀ a, Reads (f a)) :
    Reads (do let a ← getFile p fd; f a) := .bind reads_getFile hf

theorem reads_sysRead {fd : Int} : Reads (sysRead p fd) := by
  refine .ite (.pure _) (.ite (.bind reads_isPipe fun _ => .ite (reads_file fun _ => .pure _) (.pure _)) ?_)
  refine .ite (.pure _) (.bind reads_isPipe fun _ => .ite (reads_file fun _ => .pure _) ?_)
  refine .bind reads_isCharFd fun _ => .ite (reads_file fun _ => .bind reads_fdIdent fun _ => .pure _) ?_
  refine .bind reads_isPkgFd fun _ => .ite (reads_file fun _ => .pure _) ?_
  exact reads_file fun _ => .bind reads_fdIdent fun _ => .pure _

theorem reads_sysWrite {fd : Int} : Reads (sysWrite p fd) := by
  refine .ite (.pure _) (.ite (.bind reads_isPipe fun _ => .ite (reads_file fun _ => .pure _) (.pure _)) ?_)
  refine .bind reads_isPipe fun _ => .ite (reads_file fun _ => .pure _) ?_
  refine .bind reads_isCharFd fun _ => .ite (reads_file fun _ => .bind reads_fdIdent fun _ => .pure _) ?_
  refine .bind reads_isPkgFd fun _ => .ite (reads_file fun _ => .pure _) ?_
  exact reads_file fun _ => .ite (.bind reads_fdIdent fun _ => .pure _) (.pure _)

end Readers

/-! ## Every run -/

theorem WInv.step {e : FileCall} (h : WInv (fun _ _ => True) s) (he : Exclusive s e) (hst : e.Step s t) :
    WInv (fun _ _ => True) t := by
  obtain ⟨hen, hrun⟩ := hst
  cases e with
  | «open» p w flags u =>
    obtain ⟨-, hflags, hdisk⟩ := hen
    obtain ⟨r, v, hr, hv⟩ := bind_eq_ok.mp hrun
    cases hv
    have ht := wp_ok (h.sysOpen hflags hdisk he) hr
    exact ht
  | close p fd =>
    obtain ⟨r, v, hr, hv⟩ := bind_eq_ok.mp hrun
    cases hv
    have ht := wp_ok (h.sysClose he) hr
    exact ht
  | read p fd pos =>
    obtain ⟨a, v, hr, hv⟩ := bind_eq_ok.mp hrun
    have hvs : v = s := wp_ok (Q := fun _ t => t = s) (reads_sysRead s) hr
    have ht := wp_ok (hvs ▸ h).moveTo hv
    exact ht
  | write p fd pos =>
    obtain ⟨a, v, hr, hv⟩ := bind_eq_ok.mp hrun
    have hvs : v = s := wp_ok (Q := fun _ t => t = s) (reads_sysWrite s) hr
    have ht := wp_ok (hvs ▸ h).moveTo hv
    exact ht

/-- Nothing is open for writing, and no inode in use is locked. Slots may hold the inodes of mounted
devices. -/
structure Unopened (s : State) : Prop where
  fresh : ∀ q, s.next ≤ q → s.heap q = none
  nodup : s.openInodes.Nodup
  listed : ∀ q ∈ s.openInodes, ∃ x, s.heap q = some (.inode x)
  inj : ∀ q q' x x', q ∈ s.openInodes → q' ∈ s.openInodes → s.heap q = some (.inode x) →
    s.heap q' = some (.inode x') → x.iNum = x'.iNum → q = q'
  held : ∀ g q, (s.files g).fdInode = some q → ∃ x, s.heap q = some (.inode x)
  idle : ∀ g q, ¬ Writer s g q
  flag : ∀ g, (s.files g).fdFlag ≠ pipeFlag
  unlocked : ∀ q x, s.heap q = some (.inode x) → x.iLock = false

theorem Unopened.winv (h : Unopened s) : WInv (fun _ _ => True) s := by
  refine ⟨h.fresh, h.nodup, fun q hq => ?_, h.inj, h.held, fun g q hw => absurd hw (h.idle g q), h.flag,
    fun g _ q hw => absurd hw (h.idle g q), fun q x hx => ?_⟩
  · obtain ⟨x, hx⟩ := h.listed q hq
    exact ⟨x, hx, trivial⟩
  · rw [h.unlocked q x hx]
    exact iff_of_false Bool.false_ne_true fun ⟨g, hg⟩ => h.idle g q hg

theorem one_writer {as : List FileCall} (h0 : Unopened s0)
    (hrun : Run (Guarded Exclusive FileCall.Step) s0 as s) : OneWriter s := by
  have h : WInv (fun _ _ => True) s :=
    hrun.guarded_invariant (fun _ _ _ hi he hst => hi.step he hst) h0.winv
  exact h.oneWriter

/-- The root directory is in use and process 1 has the standard descriptors. -/
def State.mounted : State where
  heap q := if q = 0 then some (.inode ⟨0, .directory, 0, 1, false⟩) else none
  next := 1
  page q := some q
  freed := []
  root := 0
  openInodes := [0]
  files _ := ⟨0, 0, none⟩
  tables _ fd := if fd < 3 then some fd else none
  live := [1]

theorem mounted_unopened : Unopened .mounted := by
  refine ⟨fun q hq => if_neg (Nat.pos_iff_ne_zero.mp hq), List.nodup_singleton 0, fun q hq => ?_,
    fun q q' _ _ hq hq' _ _ _ => ?_, fun _ _ => nofun, fun _ _ hw => (nomatch hw.1), fun _ => nofun,
    fun q x hx => ?_⟩
  · rw [List.mem_singleton.mp hq]
    exact ⟨_, rfl⟩
  · rw [List.mem_singleton.mp hq, List.mem_singleton.mp hq']
  · have hx' : (if q = 0 then some (Obj.inode ⟨0, .directory, 0, 1, false⟩) else none) =
        some (.inode x) := hx
    split at hx' <;> cases hx'
    rfl

/-- The path `/a` leads to the file with inode 5. -/
def pathFile : Lookup where
  dirs := []
  target := .found 5
  disk n := if n = 0 then ⟨0, .directory, 0, 0, false⟩ else ⟨n, .regular, 0, 0, false⟩

def noSupply : Supply := ⟨false, none, false, false⟩

theorem mounted_disk {c : Supply} {a : Target} (hc : ∀ nr, c.number = some nr → nr ≠ 0) :
    DiskOk .mounted { pathFile with target := a } c := by
  have hroot : ∀ q ∈ State.mounted.openInodes, ∀ x, State.mounted.heap q = some (.inode x) →
      x = ⟨0, .directory, 0, 1, false⟩ := by
    intro q hq x hx
    rw [List.mem_singleton.mp hq] at hx
    cases hx
    rfl
  refine ⟨fun nr => ?_, fun q hq x hx => ?_, fun nr hnr => ⟨List.not_mem_nil, fun q hq x hx hn => ?_⟩⟩
  · unfold pathFile
    dsimp only
    split <;> rfl
  · rw [hroot q hq x hx]
    rfl
  · rw [hroot q hq x hx] at hn
    exact hc nr hnr hn.symm

/-- Process 1 opens `/a` for writing. -/
theorem one_writer_open : ∃ s, Run (Guarded Exclusive FileCall.Step) .mounted
    [.open 1 pathFile 2 noSupply] s ∧ OneWriter s := by
  have h : ∃ s, Run (Guarded Exclusive FileCall.Step) .mounted [.open 1 pathFile 2 noSupply] s := by
    refine ⟨_, .single ⟨⟨fun q x hq => ?_, fun _ _ _ => ⟨nofun, nofun, fun g q x hg => ?_⟩⟩,
      ⟨List.mem_singleton_self 1, by decide, mounted_disk nofun⟩, rfl⟩⟩
    · obtain ⟨g, hg⟩ := hq
      cases hg
    · cases hg.1
  obtain ⟨s, hs⟩ := h
  exact ⟨s, hs, one_writer mounted_unopened hs⟩

/-- Process 1 makes `/b` for reading and writing, and its inode is not locked. -/
theorem create_unlocked : ∃ s, Run FileCall.Step .mounted
    [.open 1 { pathFile with target := .absent false } 66 ⟨true, some 7, true, true⟩] s ∧
      ¬ OneWriter s := by
  have h : ∃ s, Run FileCall.Step .mounted
      [.open 1 { pathFile with target := .absent false } 66 ⟨true, some 7, true, true⟩] s ∧
        s.files 0 = ⟨0, 66, some 1⟩ ∧ s.heap 1 = some (.inode ⟨7, .regular, 0, 0, false⟩) := by
    refine ⟨_, .single ⟨⟨List.mem_singleton_self 1, by decide, mounted_disk ?_⟩, rfl⟩, rfl, rfl⟩
    rintro _ ⟨⟩
    decide
  obtain ⟨s, hs, hfile, hobj⟩ := h
  refine ⟨s, hs, fun h => ?_⟩
  have hw : Writer s 0 1 := by
    unfold Writer
    rw [hfile]
    exact ⟨rfl, rfl⟩
  have hlock := (h.lock 1 _ hobj).mpr ⟨0, hw⟩
  cases hlock

end Frog.Descr
