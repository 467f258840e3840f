import Frog.Descr.Writers
import Frog.Descr.OpenCalls

/-!
# Calls and writers

`sys_open`, branch by branch, under the conditions that its slots and locks stay in agreement.
-/

namespace Frog.Descr

set_option autoImplicit false
open Prog
open Fs (FileType File Stop maxFileOpen maxFilesOpenPerProc pipeFlag hasFlag oCreat clearedFile)

variable {s t u v : State} {p g fd q nr flags : Nat} {G : Nat → FileType → Prop} {x y : Inode}
  {disk : Nat → Inode} {P : Nat → Prop}

/-! ## The walk -/

theorem WInv.inodeOpen (h : WInv G s) (hl : (disk nr).iLock = false) (hG : G nr (disk nr).iType) :
    wp Any (inodeOpen disk nr) (fun q t => WInv G t ∧ Adds s t ∧ q ∈ t.openInodes ∧
      ∃ x, t.heap q = some (.inode x) ∧ x.iNum = nr) s := by
  refine wp_mono (wp_both (Q := fun _ t => WInv G t) ?_ (wp_inodeOpen h.fresh))
    fun _ _ ht => ht
  unfold Descr.inodeOpen
  simp only [wp_bind, wp_get]
  refine wp_mono wp_findOpenInode ?_
  rintro (_ | q) _ ⟨rfl, -, hnone⟩
  · simp only [wp_bind, wp_newObj, wp_listAddOpen, wp_pure]
    have halloc := h.alloc (x := { disk nr with iNum := nr, iCount := ((disk nr).iCount + 1) % 65536 }) hl
    refine halloc.list (setObj_heap.trans (if_pos rfl)) (fun hmem => ?_) hG fun r hr y hy => ?_
    · obtain ⟨y, hy, -⟩ := h.listed _ hmem
      exact Nat.lt_irrefl _ (h.lt hy)
    · obtain ⟨z, hz, -⟩ := h.listed r hr
      replace hy := setObj_heap.symm.trans hy
      rw [if_neg (h.lt hz).ne] at hy
      exact hnone rfl r hr y hy
  · exact h

/-- An inode that is closed for the last time is in no slot. -/
theorem WInv.inodeClose (h : WInv G s) (hx : s.heap q = some (.inode x))
    (hq : x.slack = 0 → ∀ g, (s.files g).fdInode ≠ some q) :
    wp Any (inodeClose q) (fun _ t => WInv G t ∧ t.files = s.files) s := by
  unfold Descr.inodeClose
  simp only [wp_bind, wp_of_ok (inodeAt_inode hx), wp_ite, wp_get, wp_check, wp_modify, wp_freeObj,
    wp_setInode, implies_true, and_true]
  exact ⟨fun hz _ => ⟨h.drop (hq hz), rfl⟩, fun _ => ⟨h.recount hx, rfl⟩⟩

theorem WInv.dirClose {d : Option Nat} {pend nrs : List Nat} (h : WInv G s)
    (hP : ∀ g q, (s.files g).fdInode = some q → P q) (hd : At s d pend)
    (ha : Affords P s (pend ++ nrs)) : wp Any (dirClose d) (fun _ t => WInv G t) s := by
  cases d with
  | none => exact h
  | some q =>
    obtain ⟨ho, x, hx, rfl⟩ := hd
    refine wp_mono (h.inodeClose hx fun hz g hg => ?_) fun _ _ ht => ht.1
    have hle := ha q x (hP g q hg) hx ho
    rw [hz, List.singleton_append, List.count_cons_self] at hle
    exact absurd hle (Nat.not_succ_le_zero _)

/-- The inodes that a walk loads. -/
def Loads (G : Nat → FileType → Prop) (disk : Nat → Inode) (nrs : List Nat) : Prop :=
  ∀ nr ∈ nrs, (disk nr).iLock = false ∧ G nr (disk nr).iType

theorem WInv.openWalk {f : List Nat → List Nat} {d : Option Nat} {pend dirs : List Nat}
    (h : WInv G s) (hcons : ∀ a b l, f (a :: b :: l) = a :: f (b :: l))
    (hl : Loads G disk dirs) (hP : ∀ q, P q → (s.heap q).isSome = true)
    (hP' : ∀ g q, (s.files g).fdInode = some q → P q) (hd : At s d pend)
    (ha : Affords P s (f (pend ++ dirs))) :
    wp Any (openWalk disk d dirs) (fun d' t => WInv G t ∧ Walked P s t ∧
      ∃ pend', At t d' pend' ∧ Affords P t (f pend')) s := by
  refine wp_mono (wp_both (Q := fun _ t => WInv G t) ?_
    (wp_openWalk hcons hP h.fresh hd ha)) fun _ _ ht => ht
  induction dirs generalizing s d pend with
  | nil => exact h
  | cons nr dirs ih =>
    simp only [Descr.openWalk, wp_bind]
    refine wp_searchFile ?_
    have hsplit : f (pend ++ nr :: dirs) = pend ++ f (nr :: dirs) := by
      cases d with
      | none =>
        cases hd
        rfl
      | some q =>
        obtain ⟨-, x, -, rfl⟩ := hd
        exact hcons ..
    rw [hsplit] at ha
    refine wp_mono (wp_both (h.dirClose hP' hd ha) (wp_dirClose hP h.fresh hd ha)) ?_
    rintro _ t ⟨ht, hw, ha'⟩
    obtain ⟨hlock, hG⟩ := hl nr List.mem_cons_self
    refine wp_mono (ht.inodeOpen hlock hG) ?_
    rintro q u ⟨hu, hadd, ho, x, hx, rfl⟩
    have hwu := hadd.walked (P := P) hw.alive
    refine ih hu (fun n hn => hl n (List.mem_cons_of_mem _ hn)) hwu.alive (fun g r hg => hP' g r ?_)
      ⟨ho, x, hx, rfl⟩ (hadd.affords hw.alive ha')
    rwa [hadd.files, hw.files] at hg

/-! ## Files that exist -/

theorem WInv.entry (h : WInv G s) {o : Option Nat} : WInv G (s.setEntry p fd o) :=
  ⟨h.fresh, h.nodup, h.listed, h.inj, h.held, h.writer, h.flag, h.one, h.lock⟩

theorem WInv.installThreadFd (h : WInv G s) {o : Option Nat} :
    wp Any (installThreadFd p o) (fun _ t => WInv G t) s :=
  wp_installThreadFd (fun _ => h) fun _ _ _ _ => h.entry

def SlotFree (s : State) : Prop := ∃ g < maxFileOpen, (s.files g).fdInode = none

theorem WInv.openAux (h : WInv G s) (hl : (disk nr).iLock = false) (hG : G nr (disk nr).iType)
    (hw : SlotFree s → writes flags = false) (hp : flags ≠ pipeFlag) :
    wp Any (openAux p disk nr flags) (fun _ t => WInv G t) s := by
  simp only [Descr.openAux, wp_bind]
  refine wp_occupy h fun g hg hfree => ?_
  simp only [wp_bind, wp_setFile]
  refine wp_mono (h.inodeOpen hl hG) ?_
  rintro q t ⟨ht, hadd, -, x, hx, -⟩
  rw [← hadd.files] at hfree
  refine (ht.reader hfree ?_ (.inl (hw ⟨g, hg, ?_⟩)) hp).installThreadFd
  · rintro _ ⟨⟩
    exact ⟨x, hx⟩
  · rwa [hadd.files] at hfree

/-- Nobody writes to the inode number `nr`. -/
def NoWriter (s : State) (nr : Nat) : Prop :=
  ∀ g q x, Writer s g q → s.heap q = some (.inode x) → x.iNum ≠ nr

theorem WInv.fileOpen (h : WInv G s) (hl : (disk nr).iLock = false) (hG : G nr (disk nr).iType)
    (hw : SlotFree s → writes flags = true → NoWriter s nr) (hp : flags ≠ pipeFlag) :
    wp Any (fileOpen p disk nr flags) (fun _ t => WInv G t) s := by
  simp only [Descr.fileOpen, wp_bind]
  refine wp_occupy h fun g hg hfree => ?_
  simp only [wp_bind, wp_setFile, wp_inodeAt, wp_ite, wp_pure, wp_setInode]
  refine wp_mono (h.inodeOpen hl hG) ?_
  rintro q t ⟨ht, hadd, ho, x, hx, hnum⟩
  have hfree' : (t.files g).fdInode = none := by
    rw [hadd.files]
    exact hfree
  intro y hy
  cases hx.symm.trans hy
  refine ⟨fun hwr => ?_, fun hwr => ?_⟩
  · have hnone : ∀ g', ¬ Writer t g' q := by
      intro g' hg'
      have hg's : Writer s g' q := by
        unfold Writer at hg' ⊢
        rwa [hadd.files] at hg'
      obtain ⟨z, hz⟩ := h.held g' q hg's.1
      have hzx : t.heap q = some (.inode z) := (hadd.heap q (Option.isSome_of_eq_some hz)).trans hz
      cases hzx.symm.trans hx
      exact hw ⟨g, hg, hfree⟩ hwr g' q x hg's hz hnum
    have hlock : x.iLock = false := by
      by_contra hne
      obtain ⟨g', hg'⟩ := (ht.lock q x hx).mp (Bool.not_eq_false _ ▸ hne)
      exact hnone g' hg'
    refine ⟨fun hne => absurd (hne.symm.trans hlock) (by decide), fun _ => ?_⟩
    refine (ht.rewrite hx (b := true) ?_ hp ?_ (fun _ _ => ho) (fun g' _ => hnone g') ?_).installThreadFd
    · rintro _ ⟨⟩
      rfl
    · rw [hfree']
      simp
    · exact iff_of_true rfl ⟨rfl, hwr⟩
  · refine (ht.reader hfree' ?_ (.inl (Bool.eq_false_of_not_eq_true hwr)) hp).installThreadFd
    rintro _ ⟨⟩
    exact ⟨x, hx⟩

theorem WInv.openPkgClient (h : WInv G s) (hl : (disk nr).iLock = false) (hG : G nr (disk nr).iType)
    (hw : SlotFree s → writes flags = false) (hp : flags ≠ pipeFlag) :
    wp Any (openPkgClient p disk nr flags) (fun _ t => WInv G t) s := by
  simp only [Descr.openPkgClient, wp_bind]
  refine wp_mono (h.inodeOpen hl hG) ?_
  rintro q t ⟨ht, hadd, -⟩
  simp only [wp_inodeAt]
  refine fun _ _ => wp_occupy ht fun g hg hfree => ?_
  simp only [wp_bind, wp_newObj, wp_setFile]
  have halloc := ht.alloc (x := ⟨0, .fifo, Fs.dnoPkgfs, 1, false⟩) rfl
  refine (halloc.reader hfree ?_ (.inl (hw ⟨g, hg, ?_⟩)) hp).installThreadFd
  · rintro _ ⟨⟩
    exact ⟨_, setObj_heap.trans (if_pos rfl)⟩
  · rwa [hadd.files] at hfree

/-- A test of the target's inode. -/
theorem WInv.isFile (h : WInv G s) (hl : (disk nr).iLock = false) (hG : G nr (disk nr).iType)
    {f : Inode → Bool} :
    wp Any (do let q ← Descr.inodeOpen disk nr; let x ← inodeAt q; pure (f x))
      (fun r t => (∃ x, r = f x ∧ G nr x.iType) ∧ WInv G t ∧ Adds s t) s := by
  simp only [wp_bind, wp_inodeAt, wp_pure]
  refine wp_mono (h.inodeOpen hl hG) ?_
  rintro q t ⟨ht, hadd, ho, x, hx, rfl⟩ y hy
  cases hx.symm.trans hy
  obtain ⟨z, hz, hGz⟩ := ht.listed q ho
  cases hx.symm.trans hz
  exact ⟨⟨x, rfl, hGz⟩, ht, hadd⟩

theorem NoWriter.adds (h : NoWriter s nr) (hs : WInv G s) (hadd : Adds s t) : NoWriter t nr := by
  intro g q x hg hx
  have hg' : Writer s g q := by
    unfold Writer at hg ⊢
    rwa [hadd.files] at hg
  obtain ⟨z, hz⟩ := hs.held g q hg'.1
  have hzx : t.heap q = some (.inode z) := (hadd.heap q (Option.isSome_of_eq_some hz)).trans hz
  cases hzx.symm.trans hx
  exact h g q x hg' hz

theorem SlotFree.adds (h : SlotFree t) (hadd : Adds s t) : SlotFree s := by
  obtain ⟨g, hg, hfree⟩ := h
  exact ⟨g, hg, hadd.files ▸ hfree⟩

/-- The inodes in the list have the type that the disk says. -/
def Typed (disk : Nat → Inode) (n : Nat) (ty : FileType) : Prop := ty = (disk n).iType

/-- A file is opened for writing only if it is neither a device nor a package and nobody writes to it. -/
def MayWrite (s : State) (disk : Nat → Inode) (nr flags : Nat) : Prop :=
  SlotFree s → writes flags = true →
    (disk nr).iType ≠ .char ∧ (disk nr).iType ≠ .fifo ∧ NoWriter s nr

theorem MayWrite.adds (h : MayWrite s disk nr flags) (hs : WInv G s) (hadd : Adds s t) :
    MayWrite t disk nr flags := fun hfree hwr =>
  (h (hfree.adds hadd) hwr).imp_right fun h => h.imp_right fun h => h.adds hs hadd

theorem MayWrite.reader (h : MayWrite s disk nr flags)
    (ht : (disk nr).iType = .char ∨ (disk nr).iType = .fifo) (hfree : SlotFree s) :
    writes flags = false := by
  by_contra hne
  obtain ⟨h1, h2, -⟩ := h hfree (Bool.not_eq_false _ ▸ hne)
  rcases ht with ht | ht
  · exact h1 ht
  · exact h2 ht

theorem WInv.openExisting (h : WInv (Typed disk) s) (hl : (disk nr).iLock = false)
    (hw : MayWrite s disk nr flags) (hp : flags ≠ pipeFlag) :
    wp Any (openExisting p disk nr flags) (fun _ t => WInv (Typed disk) t) s := by
  simp only [Descr.openExisting, wp_bind]
  refine wp_mono (h.isFile hl rfl) ?_
  rintro _ t ⟨⟨x, rfl, hx⟩, ht, hadd⟩
  replace hw := hw.adds h hadd
  rw [wp_ite]
  refine ⟨fun hchar => ?_, fun _ => ?_⟩
  · have hchar : (disk nr).iType = .char := hx ▸ LawfulBEq.eq_of_beq hchar
    simp only [wp_bind]
    refine wp_mono (ht.isFile hl rfl) ?_
    rintro aux u ⟨-, hu, hadd'⟩
    replace hw := hw.adds ht hadd'
    rw [wp_ite]
    refine ⟨fun _ => hu.openAux hl rfl (hw.reader (.inl hchar)) hp, fun _ => ?_⟩
    simp only [wp_bind]
    refine wp_mono (hu.isFile hl rfl) ?_
    rintro lfb v ⟨-, hv, hadd''⟩
    have hread := (hw.adds hu hadd'').reader (.inl hchar)
    rw [wp_ite]
    exact ⟨fun _ => hv.openAux hl rfl hread hp, fun _ => hv.openAux hl rfl hread hp⟩
  · simp only [wp_bind]
    refine wp_mono (ht.isFile hl rfl) ?_
    rintro _ u ⟨⟨y, rfl, hy⟩, hu, hadd'⟩
    replace hw := hw.adds ht hadd'
    rw [wp_ite]
    refine ⟨fun hfifo => ?_, fun _ => ?_⟩
    · have hfifo : (disk nr).iType = .fifo := hy ▸ LawfulBEq.eq_of_beq hfifo
      exact hu.openPkgClient hl rfl (hw.reader (.inr hfifo)) hp
    · exact hu.fileOpen hl rfl (fun hfree hwr => (hw hfree hwr).2.2) hp

/-! ## New files -/

/-- The call makes a file. -/
def Supply.complete (u : Supply) : Bool := u.buf && u.number.isSome && u.room && u.entry

theorem WInv.skip (h : WInv G s) {n : Nat} (hn : s.next ≤ n) : WInv G { s with next := n } :=
  ⟨fun q hq => h.fresh q (hn.trans hq), h.nodup, h.listed, h.inj, h.held, h.writer, h.flag, h.one, h.lock⟩

theorem WInv.create {w : Supply} {file : File → File} (h : WInv G s) (hl : x.iLock = false)
    (hn : ∀ nr, w.number = some nr → G nr x.iType ∧
      ∀ r ∈ s.openInodes, ∀ y, s.heap r = some (.inode y) → y.iNum ≠ nr)
    (hp : ∀ f, f.fdFlag ≠ pipeFlag → (file f).fdFlag ≠ pipeFlag)
    (hw : w.complete = true → ∀ g, freeSlot s = some g → writes (file (s.files g)).fdFlag = false) :
    wp Any (create w x file) (fun _ t => WInv G t) s := by
  unfold Descr.create
  rw [wp_ite]
  refine ⟨fun _ => h, fun hbuf => ?_⟩
  cases hnr : w.number with
  | none => exact h
  | some nr =>
    rw [wp_ite]
    refine ⟨fun _ => h, fun hroom => ?_⟩
    obtain ⟨hG, hnum⟩ := hn nr hnr
    have hundo : Function.update s.heap s.next none = s.heap :=
      Function.update_eq_self_iff.mpr (h.fresh s.next (Nat.le_refl _)).symm
    simp only [wp_bind, wp_newObj]
    cases hslot : freeSlot s with
    | none =>
      have hocc : wp Any occupyFileTableSlot (fun o t => o = none ∧
          t = { s.setObj s.next (some (.inode { x with iNum := nr })) with next := s.next + 1 })
          { s.setObj s.next (some (.inode { x with iNum := nr })) with next := s.next + 1 } := ⟨hslot, rfl⟩
      refine wp_mono hocc ?_
      rintro _ _ ⟨rfl, rfl⟩
      simp only [wp_bind, wp_freeObj, wp_pure, State.setObj, Function.update_idem, hundo]
      exact h.skip (Nat.le_succ _)
    | some g =>
      have hocc : wp Any occupyFileTableSlot (fun o t => o = some g ∧
          t = { s.setObj s.next (some (.inode { x with iNum := nr })) with next := s.next + 1 })
          { s.setObj s.next (some (.inode { x with iNum := nr })) with next := s.next + 1 } := ⟨hslot, rfl⟩
      refine wp_mono hocc ?_
      rintro _ _ ⟨rfl, rfl⟩
      have hfree : (s.files g).fdInode = none := by simpa using List.find?_some hslot
      simp only [wp_bind, wp_fileAt, wp_setFile, wp_ite, wp_listAddOpen, wp_pure, wp_freeObj]
      refine ⟨fun hentry => ?_, fun _ => ?_⟩
      · have hdone : w.complete = true := by
          unfold Supply.complete
          simp_all
        have halloc := h.alloc (x := { x with iNum := nr }) hl
        have hnew := halloc.reader (g := g) (f := { file (s.files g) with fdInode := some s.next })
          hfree (by rintro _ ⟨⟩; exact ⟨_, setObj_heap.trans (if_pos rfl)⟩) (.inl (hw hdone g hslot))
          (hp _ (h.flag g))
        refine hnew.list (setObj_heap.trans (if_pos rfl)) (fun hmem => ?_) hG fun r hr y hy => ?_
        · obtain ⟨y, hy, -⟩ := h.listed _ hmem
          exact Nat.lt_irrefl _ (h.lt hy)
        · obtain ⟨z, hz, -⟩ := h.listed r hr
          replace hy := setObj_heap.symm.trans hy
          rw [if_neg (h.lt hz).ne] at hy
          exact hnum r hr y hy
      · simp only [State.setFile, State.setObj, Function.update_idem, hundo]
        have hclear : WInv G (s.setFile g clearedFile) :=
          h.reader hfree (by rintro _ ⟨⟩) (.inr rfl) (by decide)
        exact hclear.skip (Nat.le_succ _)

end Frog.Descr
