import Frog.Descr.Opens

/-!
# `sys_open` and `sys_pipe`

Each branch of `sys_open` fills at most one free slot and gives the caller at most one descriptor for it.
-/

namespace Frog.Descr

set_option autoImplicit false
open Prog
open Fs (FileType File Stop maxFileOpen maxFilesOpenPerProc pipeFlag hasFlag oCreat clearedFile)

variable {s t u v : State} {p g fd q nr flags : Nat} {P : Nat → Prop} {disk : Nat → Inode}

theorem State.setFile_self (f : File) : (s.setFile g f).files g = f := Function.update_self ..

theorem Opened.finish (h : Opened P p s t) (hg : g < maxFileOpen) (hfree : (s.files g).fdInode = none)
    (hq : (t.files g).fdInode = some q) (ha : (t.heap q).isSome = true) (ht : t.tables = s.tables) :
    wp Any (installThreadFd p (some g)) (fun _ u => Opened P p s u) t :=
  wp_mono (h.install hg hfree (State.denotes_isSome.mpr ⟨q, hq, ha⟩) (.inl ht)) fun _ _ hu => hu.1

/-! ## Files that exist -/

theorem wp_openAux (hw : Walked P s t) :
    wp Any (openAux p disk nr flags) (fun _ u => Opened P p s u) t := by
  simp only [openAux, wp_bind]
  refine wp_occupy (hw.opened p) fun g hg hfree => ?_
  rw [hw.files] at hfree
  simp only [wp_bind, wp_setFile]
  refine wp_mono (wp_inodeOpen hw.fresh) ?_
  rintro q u ⟨hadd, -, x, hx, -⟩
  have hu := hw.trans (hadd.walked hw.alive)
  have hop := hu.fill (f := ⟨0, flags, some q⟩) hfree (Nat.two_pow_pos 32) p
  refine hop.finish hg hfree (congrArg File.fdInode (State.setFile_self _)) ?_ hu.tables
  exact Option.isSome_of_eq_some hx

theorem wp_fileOpen (hw : Walked P s t) :
    wp Any (fileOpen p disk nr flags) (fun _ u => Opened P p s u) t := by
  simp only [fileOpen, wp_bind]
  refine wp_occupy (hw.opened p) fun g hg hfree => ?_
  rw [hw.files] at hfree
  simp only [wp_bind, wp_setFile, wp_inodeAt, wp_ite, wp_pure, wp_setInode]
  refine wp_mono (wp_inodeOpen hw.fresh) ?_
  rintro q u ⟨hadd, -, x, hx, -⟩
  have hu := hw.trans (hadd.walked hw.alive)
  have hop := hu.fill (f := ⟨0, flags, some q⟩) hfree (Nat.two_pow_pos 32) p
  have hslot := congrArg File.fdInode (State.setFile_self (s := u) (g := g) ⟨0, flags, some q⟩)
  intro y hy
  refine ⟨fun _ => ⟨fun _ => hop, fun _ => ?_⟩, fun _ => ?_⟩
  · have hlock : Opened P p s (State.setObj _ q (some (.inode { y with iLock := true }))) :=
      hop.touch hy rfl
    refine hlock.finish hg hfree hslot ?_ hu.tables
    exact Option.isSome_of_eq_some (Function.update_self ..)
  · exact hop.finish hg hfree hslot (Option.isSome_of_eq_some hx) hu.tables

theorem wp_openPkgClient (hw : Walked P s t) :
    wp Any (openPkgClient p disk nr flags) (fun _ u => Opened P p s u) t := by
  simp only [openPkgClient, wp_bind]
  refine wp_mono (wp_inodeOpen hw.fresh) ?_
  rintro q u ⟨hadd, -, x, hx, -⟩
  have hu := hw.trans (hadd.walked hw.alive)
  simp only [wp_inodeAt]
  refine fun _ _ => wp_occupy (hu.opened p) fun g hg hfree => ?_
  rw [hu.files] at hfree
  simp only [wp_bind, wp_newObj, wp_setFile]
  have hnew : Adds u { u.setObj u.next (some (.inode ⟨0, .fifo, Fs.dnoPkgfs, 1, false⟩)) with
      next := u.next + 1 } := .new hu.fresh fun _ _ => Iff.rfl
  have hop := (hu.trans (hnew.walked hu.alive)).fill (f := ⟨Fs.clientMark, flags, some u.next⟩) hfree
    (by decide : Fs.clientMark < 2 ^ 32) p
  refine hop.finish hg hfree (congrArg File.fdInode (State.setFile_self _)) ?_ hu.tables
  exact Option.isSome_of_eq_some (Function.update_self ..)

/-- A test of the target's inode. -/
theorem wp_isFile (hw : Walked P s t) {f : Inode → Bool} :
    wp Any (do let q ← inodeOpen disk nr; let x ← inodeAt q; pure (f x)) (fun _ u => Walked P s u) t := by
  simp only [wp_bind, wp_inodeAt, wp_pure]
  refine wp_mono (wp_inodeOpen hw.fresh) ?_
  rintro q u ⟨hadd, -⟩
  exact fun _ _ => hw.trans (hadd.walked hw.alive)

theorem wp_openExisting (hw : Walked P s t) :
    wp Any (openExisting p disk nr flags) (fun _ u => Opened P p s u) t := by
  simp only [openExisting, wp_bind]
  refine wp_mono (wp_isFile hw) fun char u hu => ?_
  rw [wp_ite]
  refine ⟨fun _ => ?_, fun _ => ?_⟩
  · simp only [wp_bind]
    refine wp_mono (wp_isFile hu) fun aux v hv => ?_
    rw [wp_ite]
    refine ⟨fun _ => wp_openAux hv, fun _ => ?_⟩
    simp only [wp_bind]
    refine wp_mono (wp_isFile hv) fun lfb v' hv' => ?_
    rw [wp_ite]
    exact ⟨fun _ => wp_openAux hv', fun _ => wp_openAux hv'⟩
  · simp only [wp_bind]
    refine wp_mono (wp_isFile hu) fun pkg v hv => ?_
    rw [wp_ite]
    exact ⟨fun _ => wp_openPkgClient hv, fun _ => wp_fileOpen hv⟩

/-! ## New files -/

/-- Between `t` and `v` a file was made, in the slot `r` if there is one. -/
structure Made (P : Nat → Prop) (p : Nat) (s t : State) (r : Option Nat) (v : State) : Prop where
  opened : Opened P p s v
  tables : v.tables = s.tables
  heap : ∀ q, (t.heap q).isSome = true → v.heap q = t.heap q
  opens : ∀ q, (t.heap q).isSome = true → (q ∈ v.openInodes ↔ q ∈ t.openInodes)
  fills : ∀ g, (s.files g).fdInode = none → ∀ q, (v.files g).fdInode = some q → t.heap q = none
  slot : ∀ g, r = some g → g < maxFileOpen ∧ (s.files g).fdInode = none ∧
    (v.denotes g).isSome = true

/-- Only new objects so far. -/
theorem Walked.made (hw : Walked P s t) (hadd : Adds t v) : Made P p s t none v := by
  have hv := hw.trans (hadd.walked hw.alive)
  refine ⟨hv.opened p, hv.tables, hadd.heap, hadd.opens, fun g hg q hq => ?_, nofun⟩
  rw [hv.files, hg] at hq
  cases hq

/-- Addresses may be left out. -/
theorem Made.skip {r : Option Nat} {n : Nat} (h : Made P p s t r v) (hn : v.next ≤ n) :
    Made P p s t r { v with next := n } := by
  have ho := h.opened
  exact ⟨⟨ho.live, ho.files, ho.pos, ho.alive, ho.kept, fun q hq => ho.fresh q (hn.trans hq), ho.old,
    ho.entries, ho.twice⟩, h.tables, h.heap, h.opens, h.fills, h.slot⟩

/-- A free slot is filled, or cleared. -/
theorem Made.setFile {f : File} {r : Option Nat} (h : Made P p s t none v) (hv : v.files = s.files)
    (hg : (s.files g).fdInode = none) (hpos : f.fdPos < 2 ^ 32)
    (hf : ∀ q, f.fdInode = some q → t.heap q = none)
    (hr : ∀ g', r = some g' → g' < maxFileOpen ∧ (s.files g').fdInode = none ∧
      ((v.setFile g f).denotes g').isSome = true) : Made P p s t r (v.setFile g f) := by
  have ho := h.opened
  have hfile : ∀ g', (v.setFile g f).files g' = if g' = g then f else s.files g' := by
    intro g'
    rw [← hv]
    exact Function.update_apply ..
  have hw : Walked P s v := ⟨ho.live, hv, h.tables, ho.alive, ho.kept, ho.fresh⟩
  refine ⟨hw.fill hg hpos p, h.tables, h.heap, h.opens, fun g' hg' q hq => ?_, hr⟩
  rw [hfile] at hq
  split at hq
  · exact hf q hq
  · rw [hg'] at hq
    cases hq

theorem wp_create (hw : Walked P s t) {u : Supply} {x : Inode} {file : File → File}
    (hpos : ∀ f, (file f).fdPos < 2 ^ 32) :
    wp Any (create u x file) (fun r v => Made P p s t r v) t := by
  unfold create
  rw [wp_ite]
  refine ⟨fun _ => hw.made (.refl hw.fresh), fun _ => ?_⟩
  cases u.number with
  | none => exact hw.made (.refl hw.fresh)
  | some nr =>
    rw [wp_ite]
    refine ⟨fun _ => hw.made (.refl hw.fresh), fun _ => ?_⟩
    have hf := hw.fresh t.next (Nat.le_refl _)
    have hundo : Function.update t.heap t.next none = t.heap := Function.update_eq_self_iff.mpr hf.symm
    simp only [wp_bind, wp_newObj]
    refine wp_occupy ?_ fun g hg hfree => ?_
    · simp only [wp_bind, wp_freeObj, wp_pure, State.setObj, Function.update_idem, hundo]
      exact (hw.made (.refl hw.fresh)).skip (Nat.le_succ _)
    · have hfree' : (s.files g).fdInode = none := hw.files ▸ hfree
      simp only [wp_bind, wp_fileAt, wp_setFile, wp_ite, wp_listAddOpen, wp_pure, wp_freeObj]
      refine ⟨fun _ => ?_, fun _ => ?_⟩
      · have hadd : Adds t { t.setObj t.next (some (.inode { x with iNum := nr })) with
            next := t.next + 1, openInodes := t.next :: t.openInodes } :=
          .new hw.fresh fun q hq => by simp [hq]
        refine (hw.made hadd).setFile hw.files hfree' (hpos _) (fun q hq => ?_) fun g' hg' => ?_
        · cases hq
          exact hf
        · cases hg'
          refine ⟨hg, hfree', State.denotes_isSome.mpr ⟨t.next, ?_, ?_⟩⟩
          · exact congrArg File.fdInode (State.setFile_self _)
          · exact Option.isSome_of_eq_some (Function.update_self ..)
      · simp only [State.setFile, State.setObj, Function.update_idem, hundo]
        have hclear : Made P p s t none (t.setFile g clearedFile) :=
          (hw.made (.refl hw.fresh)).setFile hw.files hfree' (by decide) (by rintro _ ⟨⟩) (by simp)
        exact hclear.skip (Nat.le_succ _)

/-- The descriptor for a new file. -/
theorem Made.install (h : Made P p s t (some g) v) :
    wp Any (installThreadFd p (some g)) (fun _ w => Opened P p s w ∧ w.files = v.files ∧
      w.heap = v.heap) v := by
  obtain ⟨hg, hfree, hden⟩ := h.slot g rfl
  exact h.opened.install hg hfree hden (.inl h.tables)

/-- After a file was made, with its descriptor, its directory is closed. -/
theorem wp_dirClose_new {d : Option Nat} {pend : List Nat}
    (h : Opened P p s v) (hheap : ∀ q, (t.heap q).isSome = true → v.heap q = t.heap q)
    (hfills : ∀ g, (s.files g).fdInode = none → ∀ q, (v.files g).fdInode = some q → t.heap q = none)
    (hd : At t d pend) (ha : Affords P t pend) :
    wp Any (dirClose d) (fun _ w => Opened P p s w) v := by
  cases d with
  | none => exact h
  | some q =>
    obtain ⟨ho, x, hx, rfl⟩ := hd
    have hx' : v.heap q = some (.inode x) := (hheap q (Option.isSome_of_eq_some hx)).trans hx
    refine wp_mono (wp_inodeClose hx') fun _ w hl => h.lowered hl hx' (fun hq hz => ?_) fun g hg hq => ?_
    · have hle := ha q x hq hx ho
      rw [hz, List.count_singleton_self] at hle
      exact absurd hle (Nat.not_succ_le_zero 0)
    · exact nomatch (hfills g hg q hq).symm.trans hx

theorem wp_fileCreate {d : Option Nat} {pend : List Nat} {u : Supply} (hw : Walked P s t)
    (hd : At t d pend) (ha : Affords P t pend) :
    wp Any (fileCreate p flags u) (fun _ v => wp Any (dirClose d) (fun _ w => Opened P p s w) v) t := by
  simp only [fileCreate, wp_bind]
  refine wp_mono (wp_create (p := p) hw fun _ => Nat.two_pow_pos 32) fun r v hm => ?_
  cases r with
  | none => exact wp_dirClose_new hm.opened hm.heap hm.fills hd ha
  | some g =>
    refine wp_mono hm.install ?_
    rintro _ w ⟨ho, hfiles, hheap⟩
    exact wp_dirClose_new ho (hheap ▸ hm.heap) (hfiles ▸ hm.fills) hd ha

theorem wp_openPkgServer {d : Option Nat} {pend : List Nat} {u : Supply} (hw : Walked P s t)
    (hd : At t d pend) (ha : Affords P t pend) :
    wp Any (openPkgServer p u) (fun _ v => wp Any (dirClose d) (fun _ w => Opened P p s w) v) t := by
  simp only [openPkgServer, wp_bind]
  refine wp_mono (wp_create (p := p) hw fun _ => Nat.two_pow_pos 32) fun r v hm => ?_
  cases r with
  | none => exact wp_installNone fun _ => wp_dirClose_new hm.opened hm.heap hm.fills hd ha
  | some g =>
    refine wp_mono hm.install ?_
    rintro _ w ⟨ho, hfiles, hheap⟩
    exact wp_dirClose_new ho (hheap ▸ hm.heap) (hfiles ▸ hm.fills) hd ha

/-! ## The calls -/

theorem wp_walkAll {dirs : List Nat} (hP : ∀ q, P q → (s.heap q).isSome = true)
    (hf : ∀ q, s.next ≤ q → s.heap q = none) (ha : Affords P s dirs) :
    wp Any (openWalk disk none dirs) (fun d t => Walked P s t ∧
      ∃ pend, At t d pend ∧ Affords P t pend) s :=
  have h0 : At s none [] := rfl
  wp_openWalk (f := id) (fun _ _ _ => rfl) hP hf h0 ha

theorem wp_dirClose_walked {d : Option Nat} {pend : List Nat} (hw : Walked P s t)
    (hd : At t d pend) (ha : Affords P t pend) :
    wp Any (dirClose d) (fun _ u => Opened P p s u) t := by
  rw [← List.append_nil pend] at ha
  exact wp_mono (wp_dirClose hw.alive hw.fresh hd ha) fun _ u hu => (hw.trans hu.1).opened p

theorem wp_sysOpen {w : Lookup} {u : Supply} (hP : ∀ q, P q → (s.heap q).isSome = true)
    (hf : ∀ q, s.next ≤ q → s.heap q = none) (ha : Affords P s (closedDirs w flags)) :
    wp Any (sysOpen p w flags u) (fun _ t => Opened P p s t) s := by
  unfold closedDirs at ha
  simp only [sysOpen, wp_bind]
  cases htarget : w.target with
  | lost =>
    rw [htarget] at ha
    refine wp_mono (wp_walkAll hP hf ha) ?_
    rintro d t ⟨hw, pend, hd, hp⟩
    refine wp_searchFile ?_
    simp only [wp_bind, wp_pure]
    exact wp_dirClose_walked hw hd hp
  | absent pkg =>
    rw [htarget] at ha
    refine wp_mono (wp_walkAll hP hf ha) ?_
    rintro d t ⟨hw, pend, hd, hp⟩
    refine wp_searchFile ?_
    simp only [wp_bind, wp_ite, wp_pure]
    refine ⟨fun _ => ⟨fun _ => wp_openPkgServer hw hd hp, fun _ => wp_fileCreate hw hd hp⟩,
      fun _ => wp_dirClose_walked hw hd hp⟩
  | found nr =>
    rw [htarget] at ha
    by_cases hc : hasFlag flags oCreat = true
    · rw [if_pos hc] at ha
      refine wp_mono (wp_walkAll hP hf ha) ?_
      rintro d t ⟨hw, pend, hd, hp⟩
      refine wp_searchFile ?_
      simp only [if_pos hc, wp_bind, wp_pure]
      exact wp_dirClose_walked hw hd hp
    · rw [if_neg hc] at ha
      have h0 : At s none [] := rfl
      refine wp_mono (wp_openWalk (f := List.dropLast) (fun _ _ _ => rfl) hP hf h0 ha) ?_
      rintro d t ⟨hw, -⟩
      refine wp_searchFile ?_
      simp only [if_neg hc]
      exact wp_openExisting hw

/-- The slot of a new pipe. -/
def State.withPipe (s : State) (g : Nat) : State :=
  ({ s.setObj s.next (some .queue) with next := s.next + 1 } : State).setFile g
    { fdPos := 2, fdFlag := pipeFlag, fdInode := some s.next }

theorem wp_pipe {room : Bool} (hP : ∀ q, P q → (s.heap q).isSome = true)
    (hf : ∀ q, s.next ≤ q → s.heap q = none) :
    wp Any (sysPipe p room) (fun _ t => Opened P p s t) s := by
  simp only [sysPipe, wp_bind]
  refine wp_occupy (by simp [Any]) fun g hg hfree => ?_
  simp only [wp_need, wp_ite, wp_bind, wp_newObj, wp_setFile, wp_pure]
  refine ⟨?_, fun _ => trivial⟩
  rintro _ ⟨⟩
  refine ⟨fun _ => ?_, fun _ => (Walked.refl hP hf).opened p⟩
  have hnew : Adds s { s.setObj s.next (some .queue) with next := s.next + 1 } := .new hf fun _ _ => Iff.rfl
  have hop : Opened P p s (s.withPipe g) := (hnew.walked hP).fill hfree (by decide : 2 < 2 ^ 32) p
  have hfile : (s.withPipe g).files g = ⟨2, pipeFlag, some s.next⟩ := State.setFile_self _
  have hheap : (s.withPipe g).heap s.next = some .queue := Function.update_self ..
  have hden : ∀ t : State, t.files = (s.withPipe g).files → t.heap = (s.withPipe g).heap →
      (t.denotes g).isSome = true := fun t h1 h2 =>
    State.denotes_isSome.mpr ⟨s.next, by rw [h1, hfile], by rw [h2, hheap]; rfl⟩
  have hflag : ((s.withPipe g).files g).fdFlag = pipeFlag := by rw [hfile]
  -- the two ends
  refine wp_mono (hop.install hg hfree (hden _ rfl rfl) (.inr hflag)) ?_
  rintro _ t ⟨ht, hfiles, hheaps⟩
  exact wp_mono (ht.install hg hfree (hden t hfiles hheaps) (.inr (hfiles ▸ hflag))) fun _ _ h => h.1

end Frog.Descr
