import Frog.Descr.Standard

/-!
# Runs and the standard descriptors

The standard descriptors always have the first three slots. A call that opens leaves them alone where
these slots are occupied.
-/

namespace Frog.Descr

set_option autoImplicit false
open Prog
open Fs (File Stop maxFileOpen maxFilesOpenPerProc pipeFlag hasFlag oCreat)

variable {s0 s t v : State} {p c g fd q flags : Nat} {e : Event}

structure StdOk (s : State) : Prop where
  std : ∀ p ∈ s.live, ∀ fd < 3, s.tables p fd = some fd
  fresh : ∀ q, s.next ≤ q → s.heap q = none

/-! ## Every call keeps them -/

/-- The entries of the standard descriptors stay. -/
structure Tame (s t : State) : Prop where
  live : t.live = s.live
  std : ∀ p, ∀ fd < 3, t.tables p fd = s.tables p fd
  fresh : (∀ q, s.next ≤ q → s.heap q = none) → ∀ q, t.next ≤ q → t.heap q = none

theorem Tame.refl (s : State) : Tame s s := ⟨rfl, fun _ _ _ => rfl, id⟩

theorem Tame.trans (h : Tame s t) (h' : Tame t v) : Tame s v :=
  ⟨h'.live.trans h.live, fun p fd hfd => (h'.std p fd hfd).trans (h.std p fd hfd),
    fun hf => h'.fresh (h.fresh hf)⟩

theorem Apart.tame (h : Apart s t) : Tame s t := ⟨h.live, h.std, h.fresh⟩

theorem Tame.ok (h : Tame s t) (hs : StdOk s) : StdOk t := by
  refine ⟨fun p hp fd hfd => ?_, h.fresh hs.fresh⟩
  rw [h.std p fd hfd]
  exact hs.std p (h.live ▸ hp) fd hfd

theorem tame_mfreePage {a : Option Nat} : wp Any (mfreePage a) (fun _ t => Tame s t) s := by
  rw [wp_mfreePage]
  refine fun _ _ n _ => ⟨rfl, fun _ _ _ => rfl, fun hf q hq => ?_⟩
  change (if s.page q = some n then none else s.heap q) = none
  rw [hf q hq, ite_self]

theorem tame_sysClose {fd : Int} : wp Any (sysClose p fd) (fun _ t => Tame s t) s := by
  by_cases hc : ∃ g, 3 ≤ fd ∧ s.tables p fd.toNat = some g ∧ (s.files g).fdFlag = pipeFlag
  · obtain ⟨g, h3, hg, hflag⟩ := hc
    have hnot : ¬ fd ≤ 2 := by omega
    simp only [sysClose, if_neg hnot, fdLocal2Global, closePipe, wp_bind, wp_get, wp_check, wp_need,
      wp_pure, wp_fileAt, wp_ite, Any, implies_true, and_true]
    intro _ g' hg' _
    cases hg.symm.trans hg'
    exact ⟨fun _ => ⟨fun _ => tame_mfreePage, fun _ => .refl s⟩, fun hne => absurd hflag hne⟩
  · exact wp_mono (apart_sysClose fun g h3 hg hflag => absurd ⟨g, h3, hg, hflag⟩ hc) fun _ _ h => h.1.tame

theorem tame_releaseFd : wp Any (releaseFd p fd) (fun _ t => Tame s t) s := by
  unfold releaseFd
  simp only [wp_bind, wp_get]
  cases s.tables p fd with
  | none => exact .refl s
  | some g =>
    simp only [wp_bind, wp_check, wp_fileAt, wp_ite, wp_setFile, wp_pure, implies_true, and_true]
    refine fun _ => ⟨fun _ => ⟨fun _ => ?_, fun _ => ?_⟩, fun _ => tame_sysClose⟩
    · refine wp_mono tame_mfreePage fun _ t ht => ?_
      exact ⟨ht.live, ht.std, ht.fresh⟩
    · exact ⟨rfl, fun _ _ _ => rfl, id⟩

theorem tame_releaseFds {left : Nat} : wp Any (releaseFds p left fd) (fun _ t => Tame s t) s := by
  induction left generalizing fd s with
  | zero => exact .refl s
  | succ left ih =>
    simp only [releaseFds, wp_bind]
    exact wp_mono tame_releaseFd fun _ t ht => wp_mono ih fun _ v hv => ht.trans hv

theorem StdOk.forked (h : StdOk s) (hp : p ∈ s.live) :
    wp Any (sysFork p c) (fun _ t => StdOk t) s := by
  unfold sysFork
  simp only [wp_bind, wp_modify]
  refine wp_mono (wp_updateInodeOpenCnts (k := 3) rfl) fun _ t ht => ⟨fun p' hp' fd hfd => ?_, fun q hq => ?_⟩
  · rw [ht.tables]
    rw [ht.live] at hp'
    by_cases hc : p' = c
    · subst hc
      exact (congrFun (Function.update_self ..) fd).trans (h.std p hp fd hfd)
    · refine (congrFun (Function.update_of_ne hc ..) fd).trans (h.std p' ?_ fd hfd)
      exact (List.mem_cons.mp hp').resolve_left hc
  · rw [ht.next] at hq
    have hsame := ht.same q
    rw [h.fresh q hq] at hsame
    exact Option.isNone_iff_eq_none.mp (Option.isSome_eq_false_iff.mp hsame)

theorem Opened.ok {P : Nat → Prop} (h : Opened P p s t) (hs : StdOk s) : StdOk t :=
  ⟨fun p' hp' fd hfd => h.old p' fd fd (hs.std p' (h.live ▸ hp') fd hfd), h.fresh⟩

theorem StdOk.step (h : StdOk s) (hst : Step s e t) : StdOk t := by
  obtain ⟨hen, hrun⟩ := hst
  cases e with
  | sysOpen p w flags u =>
    obtain ⟨r, v, hr, hv⟩ := bind_eq_ok.mp hrun
    cases hv
    have ho := wp_ok (wp_sysOpen (P := fun _ => False) nofun h.fresh fun _ _ hq => hq.elim) hr
    exact ho.ok h
  | sysPipe p room =>
    obtain ⟨r, v, hr, hv⟩ := bind_eq_ok.mp hrun
    cases hv
    have ho := wp_ok (wp_pipe (P := fun _ => False) nofun h.fresh) hr
    exact ho.ok h
  | sysFork p c =>
    have hf := wp_ok (h.forked hen.1) hrun
    exact hf
  | sysClose p fd =>
    obtain ⟨r, v, hr, hv⟩ := bind_eq_ok.mp hrun
    cases hv
    have ht := wp_ok tame_sysClose hr
    exact ht.ok h
  | sysExit p =>
    obtain ⟨_, v, hr, hv⟩ := bind_eq_ok.mp hrun
    cases hv
    have ht := wp_ok tame_releaseFds hr
    exact ⟨fun p' hp' => (ht.ok h).std p' (List.mem_of_mem_erase hp'), (ht.ok h).fresh⟩

/-! ## Calls that open -/

/-- A slot of a standard descriptor holds the object at `q`. -/
def Held (s : State) (q : Nat) : Prop := ∃ g < 3, (s.files g).fdInode = some q

/-- The call gets as far as looking for a slot. -/
def asksSlot (w : Lookup) (flags : Nat) (u : Supply) : Bool :=
  match w.target with
  | .lost => false
  | .absent _ => hasFlag flags oCreat && u.buf && u.number.isSome && u.room
  | .found _ => !hasFlag flags oCreat

/-- What the slots of the standard descriptors hold is allocated; they are occupied if the call takes a
slot; and the walk does not close the last reference to what they hold. -/
def Reserved (s : State) : Event → Prop
  | .sysOpen _ w flags u => (∀ q, Held s q → (s.heap q).isSome = true) ∧
      (asksSlot w flags u = true → ∀ g < 3, (s.files g).fdInode.isSome = true) ∧
      Affords (Held s) s (closedDirs w flags)
  | .sysPipe _ room => (∀ q, Held s q → (s.heap q).isSome = true) ∧
      (room = true → ∀ g < 3, (s.files g).fdInode.isSome = true)
  | .sysFork _ _ | .sysClose _ _ | .sysExit _ => True

def Event.Opens : Event → Prop
  | .sysOpen _ _ _ _ | .sysPipe _ _ => True
  | .sysFork _ _ | .sysClose _ _ | .sysExit _ => False

/-- The call writes the slot, or makes a descriptor refer to it. -/
def Handed (s t : State) (g : Nat) : Prop :=
  t.files g ≠ s.files g ∨ ∃ p fd, t.tables p fd = some g ∧ s.tables p fd ≠ some g

structure StdKept (s t : State) : Prop where
  handed : ∀ g, Handed s t g → ∀ p ∈ s.live, ∀ fd < 3, s.tables p fd ≠ some g
  does : ∀ p ∈ s.live, ∀ fd < 3, ∀ u, t.does p fd u = s.does p fd u

/-- The slots stay, and so do the objects. -/
theorem StdOk.kept (h : StdOk s) (hfiles : ∀ g < 3, t.files g = s.files g)
    (hent : ∀ p fd, ∀ g < 3, t.tables p fd = some g ↔ s.tables p fd = some g)
    (hobj : ∀ q, Held s q → t.identAt q = s.identAt q) : StdKept s t := by
  refine ⟨fun g hg p hp fd hfd he => ?_, fun p hp fd hfd u => ?_⟩
  · rw [h.std p hp fd hfd] at he
    cases he
    rcases hg with hne | ⟨p', fd', hnew, hold⟩
    · exact hne (hfiles g hfd)
    · exact hold ((hent p' fd' g hfd).mp hnew)
  · have hold := h.std p hp fd hfd
    exact SameStd.does ⟨hold, (hent p fd fd hfd).mpr hold, hfiles fd hfd,
      fun q hq => hobj q ⟨fd, hfd, hq⟩⟩ hfd u

theorem Opened.stdKept (ho : Opened (Held s) p s t) (h : StdOk s)
    (hocc : ∀ g < 3, (s.files g).fdInode.isSome = true) : StdKept s t := by
  refine h.kept (fun g hg => ho.files g (hocc g hg)) (fun p' fd g hg => ⟨fun he => ?_, ho.old p' fd g⟩)
    ho.kept
  cases hs : s.tables p' fd with
  | none =>
    have hfree := (ho.entries p' fd g he hs).2.2.2.2.1
    have hsome := hocc g hg
    rw [hfree] at hsome
    cases hsome
  | some g' => exact (ho.old p' fd g' hs).symm.trans he

/-- A call that does not look for a slot changes no slot and no entry. -/
theorem wp_sysOpen_quiet {w : Lookup} {u : Supply} (hf : ∀ q, s.next ≤ q → s.heap q = none)
    (ha : asksSlot w flags u = false) :
    wp Any (sysOpen p w flags u) (fun _ t => t.files = s.files ∧ t.tables = s.tables) s := by
  have hwalk : wp Any (openWalk w.disk none w.dirs) (fun d t => Walked (fun _ => False) s t ∧
      ∃ pend, At t d pend ∧ Affords (fun _ => False) t pend) s :=
    wp_walkAll nofun hf fun _ _ hq => hq.elim
  have hclose : ∀ d t pend, Walked (fun _ => False) s t → At t d pend →
      wp Any (dirClose d) (fun _ v => v.files = s.files ∧ v.tables = s.tables) t := by
    intro d t pend hw hd
    have haff : Affords (fun _ => False) t (pend ++ []) := fun _ _ hq => hq.elim
    refine wp_mono (wp_dirClose hw.alive hw.fresh hd haff) fun _ v hv => ?_
    have hv' := hw.trans hv.1
    exact ⟨hv'.files, hv'.tables⟩
  unfold asksSlot at ha
  simp only [sysOpen, wp_bind]
  refine wp_mono hwalk ?_
  rintro d t ⟨hw, pend, hd, -⟩
  refine wp_searchFile ?_
  cases htarget : w.target with
  | lost =>
    simp only [wp_bind, wp_pure]
    exact hclose d t pend hw hd
  | found nr =>
    rw [htarget] at ha
    have hc : hasFlag flags oCreat = true := by simpa using ha
    simp only [if_pos hc, wp_bind, wp_pure]
    exact hclose d t pend hw hd
  | absent pkg =>
    rw [htarget] at ha
    simp only [wp_bind, wp_ite, wp_pure]
    refine ⟨fun hc => ?_, fun _ => hclose d t pend hw hd⟩
    have hnone : ∀ x file, create u x file t = .ok (none, t) := by
      intro x file
      unfold create
      cases hb : u.buf with
      | false => rfl
      | true =>
        cases hn : u.number with
        | none => rfl
        | some nr =>
          cases hr : u.room with
          | false => rfl
          | true => simp [hc, hb, hn, hr] at ha
    refine ⟨fun _ => ?_, fun _ => ?_⟩
    · simp only [openPkgServer, wp_bind]
      rw [wp_of_ok (hnone _ _)]
      exact wp_installNone fun _ => hclose d t pend hw hd
    · simp only [fileCreate, wp_bind]
      rw [wp_of_ok (hnone _ _)]
      exact hclose d t pend hw hd

theorem StdOk.law (h : StdOk s) (ho : e.Opens) (hr : Reserved s e) (hst : Step s e t) : StdKept s t := by
  obtain ⟨-, hrun⟩ := hst
  cases e with
  | sysOpen p w flags u =>
    obtain ⟨r, v, hv, hz⟩ := bind_eq_ok.mp hrun
    cases hz
    obtain ⟨halive, hocc, haff⟩ := hr
    have hop := wp_ok (wp_sysOpen halive h.fresh haff) hv
    cases ha : asksSlot w flags u with
    | true => exact hop.stdKept h (hocc ha)
    | false =>
      obtain ⟨hfiles, htab⟩ := wp_ok (wp_sysOpen_quiet h.fresh ha) hv
      exact h.kept (fun g _ => by rw [hfiles]) (fun p' fd g _ => by rw [htab]) hop.kept
  | sysPipe p room =>
    obtain ⟨r, v, hv, hz⟩ := bind_eq_ok.mp hrun
    cases hz
    obtain ⟨halive, hocc⟩ := hr
    have hop := wp_ok (wp_pipe halive h.fresh) hv
    cases room with
    | true => exact hop.stdKept h (hocc rfl)
    | false =>
      have hroom : false = true → ∀ g, freeSlot s = some g → 2 ≤ freeFds s p := fun h => nomatch h
      rcases wp_ok (wp_sysPipe hroom) hv with hts | hroom
      · rw [hts]
        exact h.kept (fun _ _ => rfl) (fun _ _ _ _ => Iff.rfl) fun _ _ => rfl
      · exact nomatch hroom.1
  | sysFork => exact ho.elim
  | sysClose => exact ho.elim
  | sysExit => exact ho.elim

/-- In every run, a call that opens takes no slot of a standard descriptor, and no descriptor 0, 1 or 2
is used otherwise afterwards. -/
theorem std_meaning {as : List Event} (h0 : StdOk s0) (hrun : Run Step s0 as s) (ho : e.Opens)
    (hr : Reserved s e) (hst : Step s e t) : StdKept s t :=
  (hrun.invariant (fun _ _ _ hs hst => hs.step hst) h0).law ho hr hst

theorem shell_std (k : Nat) : StdOk (.shell k) :=
  ⟨(shell_pipeless k).std, (shell_pipeless k).fresh⟩

theorem std_meaning_pipe : StdKept (.shell 4) ((State.shell 4).piped 1 4 3 4) := by
  refine std_meaning (shell_std 4) (.nil _) (e := .sysPipe 1 true) trivial ⟨fun q hq => ?_, fun _ => by decide⟩
    ⟨List.mem_singleton_self 1, rfl⟩
  obtain ⟨g, hg, hq⟩ := hq
  have hfile : ((State.shell 4).files g).fdInode = some g := if_pos (by omega)
  obtain rfl : g = q := Option.some.inj (hfile.symm.trans hq)
  have hobj : (State.shell 4).heap g = some (.inode ⟨g, .regular, 0, 1, false⟩) := if_pos (by omega)
  rw [hobj]
  rfl

/-- At boot a pipe takes the slot of the standard input, and a read of descriptor 0 reads the pipe. -/
theorem std_meaning_lost : ∃ t, Step (.shell 0) (.sysPipe 1 true) t ∧ Handed (.shell 0) t 0 ∧
    (State.shell 0).tables 1 0 = some 0 ∧ t.does 1 0 .read ≠ (State.shell 0).does 1 0 .read := by
  refine ⟨(State.shell 0).piped 1 0 3 4, ⟨List.mem_singleton_self 1, rfl⟩, .inr ⟨1, 3, rfl, nofun⟩, rfl,
    fun h => ?_⟩
  have hold : (State.shell 0).does 1 0 .read = .ok .refused := rfl
  have hnew : ((State.shell 0).piped 1 0 3 4).does 1 0 .read = .ok (.pipe ⟨2, pipeFlag, some 0⟩) := rfl
  rw [hold, hnew] at h
  cases h

end Frog.Descr
