import Frog.Lib.Acyclic
import Frog.Proc.Wait

/-!
# The tree of processes

Whatever the order of forks, exits and waits, also where init misses a child: pids are unique, a
parent is there as long as its children are, and nobody is its own ancestor.
-/

namespace Frog.Proc

set_option autoImplicit false
open Prog Thread Relation

variable {t : State} {w w' : World} {p q a c : Addr} {k : Site} {x : Status} {l : Nat}

/-- `q` is to wait for `a`. -/
def Parent (w : World) (a q : Addr) : Prop := w.parent a = some q

structure Family (w : World) : Prop where
  pids : Pids w.sys
  kin : Kin w.sys w.maker w.parent
  log : Log w
  /-- TCBs are named in the order in which they are made. -/
  older : ∀ a q, Parent w a q → q = initProc ∨ q < a
  mourned : ∀ a ∈ w.sys.all, (w.sys.site a).Ending → w.parent a ≠ none

theorem Inv.family (h : Inv w) (ho : ∀ a q, Parent w a q → q = initProc ∨ q < a)
    (hm : ∀ a ∈ w.sys.all, (w.sys.site a).Ending → w.parent a ≠ none) : Family w :=
  ⟨h.pids, h.kin, h.log, ho, hm⟩

namespace Family

/-- One process changes, and exits no more than before. -/
theorem turn (h : Family w) (hp : p ∈ w.sys.all) (hk : k = w.sys.site p ∨ k.Idle)
    (hx : x = .hanging ↔ k = .exited) (hend : k.Ending ↔ (w.sys.site p).Ending) :
    Family { w with sys := w.sys.turn p x l k } := by
  refine ⟨h.pids.calm (calm_turn hk), h.kin.turn hp hk hx hend.mp,
    h.log.quiet (quiet_turn hk hp hend), h.older, fun a ha he => ?_⟩
  change ((w.sys.turn p x l k).site a).Ending at he
  rw [turn_site] at he
  split at he
  · rename_i hap
    subst hap
    exact h.mourned a ha (hend.mp he)
  · exact h.mourned a ha he

theorem setBits (h : Family w) {b : Bitmap} (hpids : Pids { w.sys with pidBm := b }) :
    Family { w with sys := { w.sys with pidBm := b } } := by
  refine ⟨hpids, h.kin.setBits b, ?_, h.older, h.mourned⟩
  exact ⟨h.log.once, h.log.old, h.log.exited, h.log.accounted, h.log.known, h.log.reapers⟩

/-- A new process is younger than the one that makes it. -/
theorem bear (h : Family w) {r : Tcb} {i : Nat} {o : Option Addr} (hat : w.At p .user)
    (hi : w.sys.pidBm.findBlock 1 = some i) (hpid : r.pid = pidStart + i) (hr : r.status = .ready)
    (hk : k.makes = some w.sys.next) (ho : o = some p ∨ o = none)
    (hpar : r.parentPid = o.map fun q => (w.sys.tcb q).pid) :
    Family (w.bear (w.sys.made p r k i) w.sys.next o) := by
  obtain ⟨hp, hst, hu⟩ := hat
  have hold : ∀ a ∈ w.sys.all, a ≠ w.sys.next := fun a ha => (h.pids.old a (.inl ha)).ne
  refine ⟨h.pids.made hi hpid hk, h.kin.made h.pids hp hst hr hk ho hpar,
    h.log.quiet (quiet_made h.pids hk hu), fun a q hq => ?_, fun a ha he => ?_⟩
  · change Function.update w.parent w.sys.next o a = some q at hq
    by_cases han : a = w.sys.next
    · subst han
      rw [Function.update_self] at hq
      rcases ho with rfl | rfl
      · cases hq
        exact .inr (h.pids.old p (.inl hp))
      · cases hq
    · rw [Function.update_of_ne han] at hq
      exact h.older a q hq
  · change Function.update w.parent w.sys.next o a ≠ none
    change ((w.sys.made p r k i).site a).Ending at he
    rw [made_site _ _ _ (hold a ha)] at he
    rw [Function.update_of_ne (hold a ha)]
    split at he
    · rcases he with rfl | rfl <;> cases hk
    · exact h.mourned a ha he

theorem linked (h : Family w) (hp : p ∈ w.sys.all) (hst : (w.sys.tcb p).status = .ready)
    (hm : (w.sys.site p).makes = some c) : Family { w with sys := w.sys.linked p c l } := by
  have hcs := (h.kin.unborn p hp c hm).2.1
  refine ⟨h.pids.linked hp hm hcs, h.kin.linked hp hm hst,
    h.log.quiet (quiet_linked h.kin hp hm), h.older, fun a ha he => ?_⟩
  change ((w.sys.linked p c l).site a).Ending at he
  rw [linked_site] at he
  split at he
  · rcases he with he | he <;> cases he
  · rcases List.mem_append.mp ha with ha | ha
    · exact h.mourned a ha he
    · rw [List.mem_singleton.mp ha, hcs] at he
      rcases he with he | he <;> cases he

theorem ended (h : Family w) (hat : w.At p .user) (hpar : (w.sys.tcb p).parentPid ≠ none)
    (v : BitVec 32) : Family (w.bereave (w.sys.ended p v) p v) := by
  obtain ⟨hp, hst, hu⟩ := hat
  refine ⟨h.pids.calm (calm_ended v), h.kin.ended h.pids hp hu hst hpar v,
    h.log.ended hp hu v (h.kin.out hp) (h.pids.old p (.inl hp)), fun a q hq => ?_,
    fun a ha he => ?_⟩
  · change (if a ∈ w.sys.all ∧ w.parent a = some p then some initProc else w.parent a) = _ at hq
    split at hq
    · cases hq
      exact .inl rfl
    · exact h.older a q hq
  · change (if a ∈ w.sys.all ∧ w.parent a = some p then some initProc else w.parent a) ≠ none
    split
    · exact nofun
    · change ((w.sys.ended p v).site a).Ending at he
      rw [ended_site] at he
      split at he
      · rename_i hap
        rw [hap]
        rw [h.kin.kin p (.inl hp)] at hpar
        exact fun hno => hpar (by rw [hno]; rfl)
      · exact h.mourned a ha he

theorem wait (h : Family w) (hat : w.At p .user ∨ w.At p .wait) {r : Outcome}
    (hs : sysWait p w.sys = .ok (r, t)) : Family (w.returned t p r) := by
  have hp : p ∈ w.sys.all := hat.elim (·.1) (·.1)
  have hst : (w.sys.tcb p).status = .ready := hat.elim (·.2.1) (·.2.1)
  have hnot : ¬ (w.sys.site p).Ending := by
    rcases hat with hat | hat <;> rw [hat.2.2] <;> rintro (h | h) <;> cases h
  have hcase := wp_ok wp_sysWait hs
  cases r with
  | child c n v =>
    obtain ⟨hchild, hhang, rfl, rfl, rfl⟩ := hcase
    obtain ⟨hc, hf⟩ := (h.kin.child_iff h.pids hp).mp hchild
    refine ⟨h.pids.reaped h.kin.nodup hc (h.kin.out hc), h.kin.reaped hp hc hst hhang,
      h.log.reaped h.kin hp hnot hc hf hhang, h.older, fun a ha he => ?_⟩
    have ha' : a ∈ w.sys.all := List.mem_of_mem_erase ha
    refine h.mourned a ha' ?_
    change ((w.sys.reaped p c).site a).Ending at he
    by_cases hap : a = p
    · subst hap
      simp [State.reaped, State.setSite, Site.Ending] at he
    · rwa [reaped_site hap] at he
  | error =>
    obtain ⟨-, rfl⟩ := hcase
    rw [setSite_eq_turn]
    refine h.turn hp (.inr ⟨rfl, by simp⟩) (by rw [hst]; exact iff_of_false (by simp) (by simp)) ?_
    exact iff_of_false (by rintro (h | h) <;> cases h) hnot
  | blocked =>
    obtain ⟨-, hno, rfl⟩ := hcase
    rw [block_eq_turn]
    refine h.turn hp (.inr ⟨rfl, by simp⟩) (iff_of_false (by simp) (by simp)) ?_
    exact iff_of_false (by rintro (h | h) <;> cases h) hnot

theorem woken (h : Family w) (hq : q ∈ w.sys.all) : Family { w with sys := w.sys.woken q } := by
  unfold State.woken
  split
  · rename_i hw
    refine h.turn hq (.inl rfl) (iff_of_false nofun fun he => ?_) Iff.rfl
    rw [(h.kin.hanging q hq).mpr he] at hw
    cases hw
  · exact h

theorem step (h : Family w) {e : Act} (hs : w.Step e w') : Family w' := by
  have hready : ∀ p, p ∈ w.sys.all → (w.sys.tcb p).status = .ready → w.sys.site p ≠ .exited := by
    intro p hp hst he
    rw [(h.kin.hanging p hp).mpr he] at hst
    cases hst
  cases e with
  | fork p =>
    obtain ⟨hat, c, t, hrun, rfl⟩ := hs
    obtain ⟨rfl, -, i, hi, rfl⟩ := wp_ok wp_sysFork hrun
    exact h.bear hat hi rfl rfl rfl (.inl rfl) rfl
  | start p n d =>
    obtain ⟨hat, c, t, hrun, rfl⟩ := hs
    obtain ⟨rfl, i, hi, rfl⟩ := wp_ok wp_threadStart hrun
    exact h.bear hat hi rfl rfl rfl (.inr rfl) rfl
  | link p =>
    obtain ⟨⟨c, hat⟩, t, hrun, rfl⟩ := hs
    obtain ⟨c', l, hm, rfl⟩ := wp_ok wp_linkChild hrun
    exact h.linked (hat.elim (·.1) (·.1)) (hat.elim (·.2.1) (·.2.1)) hm
  | drop p =>
    obtain ⟨⟨c, hp, hst, hsite⟩, t, hrun, rfl⟩ := hs
    obtain ⟨-, rfl⟩ := wp_ok wp_dropChild hrun
    rw [setSite_eq_turn]
    refine h.turn hp (.inr ⟨rfl, nofun⟩) (by rw [hst]; exact iff_of_false nofun nofun) ?_
    rw [hsite]
    exact iff_of_false (by rintro (h | h) <;> cases h) (by rintro (h | h) <;> cases h)
  | exec p n =>
    obtain ⟨⟨hp, hst, hu⟩, t, hrun, rfl⟩ := hs
    obtain rfl := wp_ok wp_sysExecv hrun
    rw [setName_eq_turn, hu, hst]
    refine h.turn hp (.inl hu.symm) (iff_of_false nofun nofun) ?_
    rw [hu]
  | exit p v =>
    obtain ⟨hat, t, hrun, rfl⟩ := hs
    obtain ⟨hpar, rfl⟩ := wp_ok wp_sysExit hrun
    exact h.ended hat hpar v
  | wake p =>
    obtain ⟨⟨hp, hst, hsite⟩, t, hrun, rfl⟩ := hs
    obtain ⟨q, hq, hpar, rfl⟩ := wp_ok wp_sysExitWake hrun
    rw [hung_eq]
    refine (h.woken hq).turn (by rwa [woken_all]) (.inr ⟨rfl, nofun⟩) (iff_of_true rfl rfl) ?_
    change _ ↔ ((w.sys.woken q).site p).Ending
    rw [woken_site, hsite]
    exact iff_of_true (.inr rfl) (.inl rfl)
  | wait p =>
    obtain ⟨hat, r, t, hrun, rfl⟩ := hs
    exact h.wait hat hrun
  | release p =>
    obtain ⟨⟨n, hp, hst, hsite⟩, t, hrun, rfl⟩ := hs
    obtain ⟨n', hn, hle, rfl⟩ := wp_ok wp_sysWaitEnd hrun
    have hpids := h.pids.released hp hn hle
    rw [released_eq] at hpids ⊢
    have hturn : Family { w with
        sys := w.sys.turn p (w.sys.tcb p).status (w.sys.tcb p).nameLength .user } := by
      refine h.turn hp (.inr ⟨rfl, nofun⟩) (by rw [hst]; exact iff_of_false nofun nofun) ?_
      rw [hsite]
      exact iff_of_false (by rintro (h | h) <;> cases h) (by rintro (h | h) <;> cases h)
    exact hturn.setBits hpids
  | sleep p =>
    obtain ⟨hp, hst, hne, rfl⟩ := hs
    rw [setStatus_eq_turn]
    exact h.turn hp (.inl rfl) (iff_of_false nofun (hready p hp hst)) Iff.rfl
  | rouse p =>
    obtain ⟨hp, hst, rfl⟩ := hs
    rw [setStatus_eq_turn]
    refine h.turn hp (.inl rfl) (iff_of_false nofun fun he => ?_) Iff.rfl
    rw [(h.kin.hanging p hp).mpr he] at hst
    cases hst

theorem boot (bits : Bytes.Store) : Family (.boot bits) := by
  refine (Inv.boot bits).family nofun fun a _ he => ?_
  rcases he with he | he <;> cases he

theorem run {bits : Bytes.Store} {as : List Act} (h : Run World.Step (.boot bits) as w) :
    Family w := h.invariant (fun _ _ _ hf hs => hf.step hs) (boot bits)

/-! ## What follows -/

/-- Init is the root for all that have a parent, and the others were made earlier than their
children. -/
theorem acyclic (h : Family w) : Acyclic (Parent w) := by
  have hrank : ∀ a q, TransGen (Parent w) a q →
      (if q = initProc then 0 else q + 1) < if a = initProc then 0 else a + 1 := by
    have hone : ∀ a q, Parent w a q →
        (if q = initProc then 0 else q + 1) < if a = initProc then 0 else a + 1 := by
      intro a q hq
      have hne : a ≠ initProc := by
        rintro rfl
        rw [Parent, h.kin.init.2.2.1] at hq
        cases hq
      rw [if_neg hne]
      split
      · exact Nat.succ_pos a
      · rcases h.older a q hq with he | hlt
        · contradiction
        · exact Nat.succ_lt_succ hlt
    intro a q haq
    induction haq with
    | single hq => exact hone _ _ hq
    | tail _ hq ih => exact lt_trans (hone _ _ hq) ih
  exact fun a haa => absurd (hrank a a haa) (Nat.lt_irrefl _)

/-- The ancestors of a process are there and do not exit. -/
theorem ancestors (h : Family w) (ha : a ∈ w.sys.all) (haq : ReflTransGen (Parent w) a q) :
    q ∈ w.sys.all := by
  induction haq with
  | refl => exact ha
  | tail _ hq ih => exact (h.kin.alive _ _ (.inl ih) hq).1

/-- The exit of a process finds its parent. -/
theorem exitWake (h : Family w) (hat : w.At p .exiting) :
    ∃ q t, w.parent p = some q ∧ sysExitWake p w.sys = .ok ((), t) ∧ t = w.sys.hung p q := by
  obtain ⟨hp, -, hsite⟩ := hat
  obtain ⟨q, hq⟩ := Option.ne_none_iff_exists'.mp (h.mourned p hp (hsite ▸ .inl rfl))
  have hpar : (w.sys.tcb p).parentPid = some (w.sys.tcb q).pid := by
    rw [h.kin.kin p (.inl hp), hq]
    rfl
  obtain ⟨hqs, -⟩ := h.kin.alive p q (.inl hp) hq
  have hfind : w.sys.all.find? (fun q => some (w.sys.tcb q).pid = (w.sys.tcb p).parentPid) =
      some q := by
    obtain ⟨r, hr⟩ : ∃ r, w.sys.all.find? (fun q =>
        some (w.sys.tcb q).pid = (w.sys.tcb p).parentPid) = some r := by
      rw [← Option.isSome_iff_exists, List.find?_isSome]
      exact ⟨q, hqs, by simp [hpar]⟩
    have hrs := List.mem_of_find?_eq_some hr
    have hrp := List.find?_some hr
    simp only [hpar, decide_eq_true_eq, Option.some.injEq] at hrp
    rw [hr, h.pids.tcb_inj (.inl hrs) (.inl hqs) hrp]
  refine ⟨q, _, hq, run_eq_of_wp ?_, rfl⟩
  simp only [sysExitWake, setStatus, Frog.Proc.goto, wp_bind, wp_get, wp_need, wp_ite, wp_modify,
    hfind, Option.some.injEq, forall_eq', reduceCtorEq, false_implies, and_true]
  refine ⟨fun hw => ⟨trivial, ?_⟩, fun hw => ⟨trivial, ?_⟩⟩
  · rw [State.hung, if_pos hw]
  · rw [State.hung, if_neg hw]

end Family

/-- What holds of the processes in every reachable state. -/
structure FamilyLaw (w : World) : Prop where
  /-- No two TCBs, of the list or about to be linked, have one pid, and none has one that is about to
  be given back. -/
  pids : ∀ x y n, Holds w.sys x n → Holds w.sys y n → x = y
  /-- A pid in use is not handed out. -/
  marked : ∀ x n, Holds w.sys x n → n = 0 ∨ ∃ i, n = pidStart + i ∧ w.sys.pidBm.getValue i = true
  parents : ∀ a ∈ w.sys.all, ∀ q, Parent w a q →
    q ∈ w.sys.all ∧ ¬ (w.sys.site q).Ending ∧ w.sys.Child q a
  acyclic : Acyclic (Parent w)
  roots : ∀ a ∈ w.sys.all, ∃ r ∈ w.sys.all, ReflTransGen (Parent w) a r ∧ w.parent r = none
  /-- `sys_exit` finds the TCB of the parent. -/
  exit : ∀ p, w.At p .exiting → ∃ q t, Parent w p q ∧ sysExitWake p w.sys = .ok ((), t) ∧
    t = w.sys.hung p q
  /-- No child is returned twice. -/
  once : ∀ e ∈ w.exits, Pending w e ∨ Done w e

/-- Whatever the processes do, in whatever order. -/
theorem family_kept (bits : Bytes.Store) {as : List Act}
    (h : Run World.Step (.boot bits) as w) : FamilyLaw w := by
  have hf := Family.run h
  refine ⟨hf.pids.inj, hf.pids.marked, fun a ha q hq => ?_, hf.acyclic, fun a ha => ?_,
    fun p hat => hf.exitWake hat, hf.log.accounted⟩
  · obtain ⟨hqs, hend⟩ := hf.kin.alive a q (.inl ha) hq
    exact ⟨hqs, hend, (hf.kin.child_iff hf.pids hqs).mpr ⟨ha, hq⟩⟩
  · -- a root has no parent, and what has a parent is no root
    let live : Addr → Addr → Prop := fun a q => a ∈ w.sys.all ∧ Parent w a q
    have hlive : Acyclic live := hf.acyclic.mono fun _ _ h => h.2
    have hin : ∀ a q, live a q → q ∈ w.sys.all := fun a q h => (hf.kin.alive a q (.inl h.1) h.2).1
    obtain ⟨r, har, hr⟩ := hlive.exists_sink hin a
    have har' : ReflTransGen (Parent w) a r := ReflTransGen.mono (fun _ _ h => h.2) _ _ har
    have hrs := hf.ancestors ha har'
    refine ⟨r, hrs, har', ?_⟩
    by_contra hno
    obtain ⟨q, hq⟩ := Option.ne_none_iff_exists'.mp hno
    exact hr q ⟨hrs, hq⟩

/-- Process 3 exits before its child 4, which goes to init. -/
theorem family_kept_orphan :
    ∃ w, Run World.Step (.boot fun _ => 0)
      [.fork 0, .link 0, .exec 3 2, .fork 3, .link 3, .exit 3 0, .wake 3] w ∧ FamilyLaw w ∧
      w.maker 4 = some 3 ∧ w.parent 4 = some initProc := by
  obtain ⟨w, hw, hm, hp⟩ : ∃ w, Run World.Step (.boot fun _ => 0)
      [.fork 0, .link 0, .exec 3 2, .fork 3, .link 3, .exit 3 0, .wake 3] w ∧
      w.maker 4 = some 3 ∧ w.parent 4 = some initProc := by
    refine ⟨_, .cons (World.step_fork ⟨by decide, rfl, rfl⟩ rfl (by decide) (by decide)) <|
      .cons ⟨⟨3, .inl ⟨by decide, rfl, rfl⟩⟩, _, rfl, rfl⟩ <|
      .cons ⟨⟨by decide, rfl, rfl⟩, _, rfl, rfl⟩ <|
      .cons (World.step_fork ⟨by decide, rfl, rfl⟩ rfl (by decide) (by decide)) <|
      .cons ⟨⟨4, .inl ⟨by decide, rfl, rfl⟩⟩, _, rfl, rfl⟩ <|
      .cons ⟨⟨by decide, rfl, rfl⟩, _, rfl, rfl⟩ <|
      .single ⟨⟨by decide, rfl, rfl⟩, _, rfl, rfl⟩, rfl, rfl⟩
  exact ⟨w, hw, family_kept _ hw, hm, hp⟩

end Frog.Proc
