import Frog.Proc.Kin

/-!
# Waiting for children

Every child that exited is returned once, to the process that is to wait for it, unless it still
hangs; and nobody sleeps in `sys_wait` beside a child that hangs, as long as no process with such a
child exits while init sleeps there.
-/

namespace Frog.Proc

set_option autoImplicit false
open Prog Thread

variable {s t : State} {w w' : World} {p q a c : Addr} {n : Pid} {k : Site} {x : Status} {l : Nat}
  {m f : Addr → Option Addr}

/-! ## What was returned -/

/-- An exited process that is still there. -/
def Pending (w : World) (e : Addr × BitVec 32) : Prop :=
  e.1 ∈ w.sys.all ∧ (w.sys.site e.1).Ending ∧ (w.sys.tcb e.1).exitStatus = e.2 ∧
    ∀ r ∈ w.returns, r.child ≠ e.1

/-- One that was returned, once. -/
def Done (w : World) (e : Addr × BitVec 32) : Prop :=
  e.1 ∉ w.sys.all ∧ ∃ r, w.returns.filter (·.child = e.1) = [r] ∧ r.status = e.2 ∧
    r.pid = (w.sys.tcb e.1).pid ∧ w.parent e.1 = some r.waiter

/-- No page is kept for `a`. -/
def Unmade (s : State) (a : Addr) : Prop := a < s.next ∧ ∀ p ∈ s.all, (s.site p).makes ≠ some a

structure Log (w : World) : Prop where
  once : (w.exits.map Prod.fst).Nodup
  old : ∀ e ∈ w.exits, Unmade w.sys e.1
  exited : ∀ a ∈ w.sys.all, (w.sys.site a).Ending → (a, (w.sys.tcb a).exitStatus) ∈ w.exits
  accounted : ∀ e ∈ w.exits, Pending w e ∨ Done w e
  known : ∀ r ∈ w.returns, ∃ v, (r.child, v) ∈ w.exits
  reapers : ∀ p ∈ w.sys.all, ∀ n, w.sys.site p = .reaping n →
    ∃ r ∈ w.returns, r.waiter = p ∧ r.pid = n

/-- A change that neither ends a process nor returns one. -/
structure Quiet (s : State) (f : Addr → Option Addr) (t : State) (g : Addr → Option Addr) : Prop where
  unmade : ∀ a, Unmade s a → Unmade t a
  mem : ∀ a, Unmade s a → (a ∈ t.all ↔ a ∈ s.all)
  ending : ∀ a ∈ t.all, (t.site a).Ending ↔ a ∈ s.all ∧ (s.site a).Ending
  same : ∀ a, Unmade s a → (t.tcb a).pid = (s.tcb a).pid ∧
    (t.tcb a).exitStatus = (s.tcb a).exitStatus ∧ g a = f a
  reaping : ∀ p ∈ t.all, ∀ n, t.site p = .reaping n → p ∈ s.all ∧ s.site p = .reaping n

theorem Log.quiet (h : Log w) {g : Addr → Option Addr} (hq : Quiet w.sys w.parent t g) :
    Log { w with sys := t, maker := m, parent := g } := by
  refine ⟨h.once, fun e he => hq.unmade _ (h.old e he), fun a ha hend => ?_, fun e he => ?_, h.known,
    fun p hp n hs => ?_⟩
  · obtain ⟨has, hend⟩ := (hq.ending a ha).mp hend
    have hmem := h.exited a has hend
    rwa [← (hq.same a (h.old _ hmem)).2.1] at hmem
  · have hold := h.old e he
    obtain ⟨hpid, hstatus, hpar⟩ := hq.same _ hold
    rcases h.accounted e he with ⟨hin, hend, hv, hno⟩ | ⟨hout, r, hr, hv, hrp, hw⟩
    · have hin' := (hq.mem _ hold).mpr hin
      exact .inl ⟨hin', (hq.ending _ hin').mpr ⟨hin, hend⟩, hstatus.trans hv, hno⟩
    · refine .inr ⟨fun hin => hout ((hq.mem _ hold).mp hin), r, hr, hv, ?_, hpar.trans hw⟩
      exact hrp.trans hpid.symm
  · obtain ⟨hp, hs⟩ := hq.reaping p hp n hs
    exact h.reapers p hp n hs

theorem quiet_turn (hk : k = s.site p ∨ k.Idle) (hp : p ∈ s.all)
    (hend : k.Ending ↔ (s.site p).Ending) : Quiet s f (s.turn p x l k) f := by
  have hcalm : Calm s (s.turn p x l k) := calm_turn hk
  refine ⟨fun a ha => ⟨ha.1, fun q hq hm => ?_⟩, fun _ _ => Iff.rfl, fun a ha => ?_,
    fun a _ => ⟨turn_pid, turn_exitStatus, rfl⟩, fun q hq n hs => ⟨hq, ?_⟩⟩
  · rcases hcalm.site q with he | hi
    · exact ha.2 q hq (he ▸ hm)
    · rw [hi.1] at hm
      cases hm
  · rw [turn_site]
    split
    · rename_i hap
      subst hap
      exact hend.trans (and_iff_right hp).symm
    · exact (and_iff_right ha).symm
  · exact (hcalm.holds (x := .reaper q) ⟨hq, hs⟩).2

theorem quiet_made (hpids : Pids s) {r : Tcb} {i : Nat} {o : Option Addr}
    (hk : k.makes = some s.next) (hu : s.site p = .user) :
    Quiet s f (s.made p r k i) (Function.update f s.next o) := by
  have hold : ∀ q ∈ s.all, q ≠ s.next := fun q hq => (hpids.old q (.inl hq)).ne
  have hend : ¬ k.Ending := by
    rintro (rfl | rfl) <;> cases hk
  refine ⟨fun a ha => ⟨Nat.lt_succ_of_lt ha.1, fun q hq hm => ?_⟩, fun _ _ => Iff.rfl,
    fun a ha => ?_, fun a ha => ?_, fun q hq n hs => ⟨hq, ?_⟩⟩
  · rw [made_site _ _ _ (hold q hq)] at hm
    split at hm
    · rw [hk] at hm
      cases hm
      exact absurd ha.1 (Nat.lt_irrefl _)
    · exact ha.2 q hq hm
  · rw [made_site _ _ _ (hold a ha)]
    split
    · rename_i hap
      rw [hap, hu]
      refine iff_of_false hend ?_
      rintro ⟨-, h | h⟩ <;> cases h
    · exact (and_iff_right ha).symm
  · rw [made_tcb _ _ _ ha.1.ne, Function.update_of_ne ha.1.ne]
    exact ⟨rfl, rfl, rfl⟩
  · rw [made_site _ _ _ (hold q hq)] at hs
    split at hs
    · rw [hs] at hk
      cases hk
    · exact hs

theorem quiet_linked (h : Kin s m f) (hp : p ∈ s.all) (hm : (s.site p).makes = some c) :
    Quiet s f (s.linked p c l) f := by
  obtain ⟨hc, hcs, -, -⟩ := h.unborn p hp c hm
  have hcp : c ≠ p := fun he => hc (he ▸ hp)
  have hne : ∀ a, Unmade s a → a ≠ c := fun a ha he => ha.2 p hp (he ▸ hm)
  have hsite : ∀ q ∈ (s.linked p c l).all, (s.linked p c l).site q = .user ∨
      q ∈ s.all ∧ (s.linked p c l).site q = s.site q := by
    intro q hq
    rw [linked_site]
    split
    · exact .inl rfl
    · rcases List.mem_append.mp hq with hq | hq
      · exact .inr ⟨hq, rfl⟩
      · rw [List.mem_singleton.mp hq]
        exact .inl hcs
  refine ⟨fun a ha => ⟨ha.1, fun q hq hqm => ?_⟩, fun a ha => ?_, fun a ha => ?_, fun a ha => ?_,
    fun q hq n hs => ?_⟩
  · rcases hsite q hq with hu | ⟨hq, hs⟩
    · rw [hu] at hqm
      cases hqm
    · exact ha.2 q hq (hs ▸ hqm)
  · refine ⟨fun hm => ?_, List.mem_append_left _⟩
    rcases List.mem_append.mp hm with hm | hm
    · exact hm
    · exact absurd (List.mem_singleton.mp hm) (hne a ha)
  · rcases hsite a ha with hu | ⟨haa, hs⟩
    · rw [hu]
      refine iff_of_false (by rintro (h | h) <;> cases h) ?_
      rintro ⟨haa, hend⟩
      rw [linked_site] at hu
      split at hu
      · rename_i hap
        rw [hap] at hend
        rcases hend with he | he <;> rw [he] at hm <;> cases hm
      · rw [hu] at hend
        rcases hend with he | he <;> cases he
    · rw [hs]
      exact (and_iff_right haa).symm
  · rw [linked_tcb (hne a ha)]
    exact ⟨rfl, rfl, rfl⟩
  · rcases hsite q hq with hu | ⟨hq, hsq⟩
    · rw [hu] at hs
      cases hs
    · exact ⟨hq, hsq ▸ hs⟩

/-- An exit is written down. -/
theorem Log.ended (h : Log w) (hp : p ∈ w.sys.all) (hu : w.sys.site p = .user) (v : BitVec 32)
    (hout : ∀ q ∈ w.sys.all, (w.sys.site q).makes ≠ some p) (hlt : p < w.sys.next) :
    Log (w.bereave (w.sys.ended p v) p v) := by
  have hnew : ∀ e ∈ w.exits, e.1 ≠ p := by
    rintro e he rfl
    rcases h.accounted e he with ⟨-, hend, -⟩ | ⟨hno, -⟩
    · rw [hu] at hend
      rcases hend with hend | hend <;> cases hend
    · exact hno hp
  have hunmade : ∀ a, Unmade w.sys a → Unmade (w.sys.ended p v) a := by
    refine fun a ha => ⟨ha.1, fun q hq hm => ?_⟩
    rw [ended_site] at hm
    split at hm
    · cases hm
    · exact ha.2 q hq hm
  refine ⟨?_, fun e he => ?_, fun a ha hend => ?_, fun e he => ?_, fun r hr => ?_,
    fun q hq n hs => ?_⟩
  · have hnodup : (w.exits.map Prod.fst ++ [p]).Nodup := by
      refine List.nodup_append_comm.mp (List.nodup_cons.mpr ⟨fun hm => ?_, h.once⟩)
      obtain ⟨e, he, hep⟩ := List.mem_map.mp hm
      exact hnew e he hep
    simpa [World.bereave] using hnodup
  · rcases List.mem_append.mp he with he | he
    · exact hunmade _ (h.old e he)
    · rw [List.mem_singleton.mp he]
      exact hunmade _ ⟨hlt, hout⟩
  · have hstatus := (ended_tcb (s := w.sys) (p := p) (q := a) v).2.2.1
    change (a, ((w.sys.ended p v).tcb a).exitStatus) ∈ w.exits ++ [(p, v)]
    rw [hstatus]
    by_cases hap : a = p
    · rw [hap, if_pos rfl]
      exact List.mem_append_right _ (List.mem_singleton_self _)
    · rw [if_neg hap]
      have hsite : (w.sys.ended p v).site a = w.sys.site a := by rw [ended_site, if_neg hap]
      have hend' : (w.sys.site a).Ending := hsite ▸ hend
      exact List.mem_append_left _ (h.exited a ha hend')
  · rcases List.mem_append.mp he with he | he
    · have hep := hnew e he
      obtain ⟨hpid, -, hstatus, -⟩ := ended_tcb (s := w.sys) (p := p) (q := e.1) v
      rw [if_neg hep] at hstatus
      rcases h.accounted e he with ⟨hin, hend, hv, hno⟩ | ⟨hno, r, hr, hv, hrp, hw⟩
      · refine .inl ⟨hin, ?_, hstatus.trans hv, hno⟩
        change ((w.sys.ended p v).site e.1).Ending
        rwa [ended_site, if_neg hep]
      · refine .inr ⟨hno, r, hr, hv, hrp.trans hpid.symm, ?_⟩
        change (if e.1 ∈ w.sys.all ∧ w.parent e.1 = some p then _ else _) = _
        rwa [if_neg fun hm => hno hm.1]
    · rw [List.mem_singleton.mp he]
      refine .inl ⟨hp, ?_, ?_, fun r hr hrp => ?_⟩
      · change ((w.sys.ended p v).site p).Ending
        rw [ended_site, if_pos rfl]
        exact .inl rfl
      · exact ((ended_tcb v).2.2.1).trans (if_pos rfl)
      · obtain ⟨v', hv'⟩ := h.known r hr
        exact hnew _ hv' hrp
  · obtain ⟨v', hv'⟩ := h.known r hr
    exact ⟨v', List.mem_append_left _ hv'⟩
  · change (w.sys.ended p v).site q = _ at hs
    rw [ended_site] at hs
    split at hs
    · cases hs
    · exact h.reapers q hq n hs

/-- A reap returns a child for the first time. -/
theorem Log.reaped (h : Log w) (hk : Kin w.sys w.maker w.parent) (hp : p ∈ w.sys.all)
    (hp' : ¬ (w.sys.site p).Ending) (hc : c ∈ w.sys.all) (hpar : w.parent c = some p)
    (hhang : (w.sys.tcb c).status = .hanging) :
    Log { w with
      sys := w.sys.reaped p c
      returns := w.returns ++ [⟨p, c, (w.sys.tcb c).pid, (w.sys.tcb c).exitStatus⟩] } := by
  have hcend : (w.sys.site c).Ending := .inr ((hk.hanging c hc).mp hhang)
  have hmem : ∀ a, a ∈ w.sys.all.erase c ↔ a ≠ c ∧ a ∈ w.sys.all := fun a => hk.nodup.mem_erase_iff
  have hsite : ∀ a, ((w.sys.reaped p c).site a).Ending ↔ (w.sys.site a).Ending := by
    intro a
    by_cases hap : a = p
    · subst hap
      refine iff_of_false ?_ hp'
      simp [State.reaped, State.setSite, Site.Ending]
    · rw [reaped_site hap]
  have hexit : ∀ a, ((w.sys.reaped p c).tcb a).exitStatus = (w.sys.tcb a).exitStatus := by
    intro a
    by_cases hac : a = c
    · subst hac
      simp [State.reaped, State.setStatus, State.setTcb, State.setSite]
    · simp [State.reaped, State.setStatus, State.setTcb, State.setSite, hac]
  refine ⟨h.once, fun e he => ⟨(h.old e he).1, fun q hq hm => ?_⟩, fun a ha hend => ?_,
    fun e he => ?_, fun r hr => ?_, fun q hq n hs => ?_⟩
  · obtain ⟨-, hq⟩ := (hmem q).mp hq
    by_cases hqp : q = p
    · subst hqp
      simp [State.reaped, State.setSite, Site.makes] at hm
    · rw [reaped_site hqp] at hm
      exact (h.old e he).2 q hq hm
  · have := h.exited a ((hmem a).mp ha).2 ((hsite a).mp hend)
    rwa [← hexit a] at this
  · by_cases hec : e.1 = c
    · rcases h.accounted e he with ⟨-, -, hv, hno⟩ | ⟨hno, -⟩
      · refine .inr ⟨fun hin => ((hmem _).mp hin).1 hec,
          ⟨p, c, (w.sys.tcb c).pid, (w.sys.tcb c).exitStatus⟩, ?_, hec ▸ hv, ?_, hec ▸ hpar⟩
        · have hnil : w.returns.filter (·.child = e.1) = [] := by
            rw [List.filter_eq_nil_iff]
            intro r hr
            simpa using hno r hr
          rw [List.filter_append, hnil]
          simp [hec]
        · rw [hec]
          exact (reaped_pid c).symm
      · exact absurd (hec ▸ hc) hno
    · rcases h.accounted e he with ⟨hin, hend, hv, hno⟩ | ⟨hno, r, hr, hv, hrp, hw⟩
      · refine .inl ⟨(hmem _).mpr ⟨hec, hin⟩, (hsite _).mpr hend, (hexit _).trans hv, fun r hr => ?_⟩
        rcases List.mem_append.mp hr with hr | hr
        · exact hno r hr
        · rw [List.mem_singleton.mp hr]
          exact Ne.symm hec
      · refine .inr ⟨fun hin => hno ((hmem _).mp hin).2, r, ?_, hv, hrp.trans (reaped_pid _).symm, hw⟩
        rw [List.filter_append, hr]
        simp [Ne.symm hec]
  · rcases List.mem_append.mp hr with hr | hr
    · exact h.known r hr
    · rw [List.mem_singleton.mp hr]
      exact ⟨_, h.exited c hc hcend⟩
  · by_cases hqp : q = p
    · subst hqp
      refine ⟨_, List.mem_append_right _ (List.mem_singleton_self _), rfl, ?_⟩
      simpa [State.reaped, State.setSite] using hs
    · change (w.sys.reaped p c).site q = _ at hs
      rw [reaped_site hqp] at hs
      obtain ⟨r, hr, hrest⟩ := h.reapers q ((hmem q).mp hq).2 n hs
      exact ⟨r, List.mem_append_left _ hr, hrest⟩

/-! ## Who sleeps -/

/-- `p` is blocked in `sys_wait`. -/
def Asleep (s : State) (p : Addr) : Prop := s.site p = .wait ∧ (s.tcb p).status = .waiting

/-- Nobody sleeps in `sys_wait` beside a child that hangs. -/
def Unstranded (s : State) (f : Addr → Option Addr) : Prop :=
  ∀ p ∈ s.all, Asleep s p → ∀ c ∈ s.all, f c = some p → (s.tcb c).status ≠ .hanging

/-- No process with a hanging child exits while init sleeps in `sys_wait`. -/
def Timely (w : World) : Act → Prop
  | .exit p _ => (∃ c, w.sys.Child p c ∧ (w.sys.tcb c).status = .hanging) →
    ∀ i ∈ w.sys.all, (w.sys.tcb i).pid = 1 → ¬ Asleep w.sys i
  | _ => True

/-- Who sleeps and hangs after a step did so before. -/
theorem Unstranded.mono {g : Addr → Option Addr} (h : Unstranded s f)
    (hp : ∀ p ∈ t.all, Asleep t p → p ∈ s.all ∧ Asleep s p)
    (hc : ∀ c ∈ t.all, (t.tcb c).status = .hanging → c ∈ s.all ∧ (s.tcb c).status = .hanging ∧ g c = f c) :
    Unstranded t g := by
  intro p hpt hsleep c hct hg hhang
  obtain ⟨hps, hsleep⟩ := hp p hpt hsleep
  obtain ⟨hcs, hhang, he⟩ := hc c hct hhang
  exact h p hps hsleep c hcs (he ▸ hg) hhang

theorem Unstranded.turn (h : Unstranded s f) (hx : x ≠ .hanging)
    (hk : ¬ (k = .wait ∧ x = .waiting)) : Unstranded (s.turn p x l k) f := by
  refine h.mono (fun q hq hs => ⟨hq, ?_⟩) fun c hc hs => ⟨hc, ?_, rfl⟩
  · rw [Asleep, turn_site, turn_status] at hs
    split at hs
    · exact absurd hs hk
    · exact hs
  · rw [turn_status] at hs
    split at hs
    · exact absurd hs hx
    · exact hs

theorem Unstranded.made (h : Unstranded s f) (hpids : Pids s) {r : Tcb} {i : Nat} {o : Option Addr}
    (hk : k.makes = some s.next) : Unstranded (s.made p r k i) (Function.update f s.next o) := by
  have hold : ∀ q ∈ s.all, q ≠ s.next := fun q hq => (hpids.old q (.inl hq)).ne
  refine h.mono (fun q hq hs => ⟨hq, ?_⟩) fun c hc hs => ⟨hc, ?_, Function.update_of_ne (hold c hc) ..⟩
  · rw [Asleep, made_site _ _ _ (hold q hq), made_tcb _ _ _ (hold q hq)] at hs
    split at hs
    · rw [hs.1] at hk
      cases hk
    · exact hs
  · rwa [made_tcb _ _ _ (hold c hc)] at hs

theorem Unstranded.linked (h : Unstranded s f) (hk : Kin s m f) (hp : p ∈ s.all)
    (hm : (s.site p).makes = some c) : Unstranded (s.linked p c l) f := by
  obtain ⟨-, hcs, hct, -⟩ := hk.unborn p hp c hm
  refine h.mono (fun q hq hs => ?_) fun d hd hs => ?_
  · rw [Asleep, linked_site, linked_status] at hs
    split at hs
    · cases hs.1
    · rcases List.mem_append.mp hq with hq | hq
      · exact ⟨hq, hs⟩
      · rw [List.mem_singleton.mp hq, hcs] at hs
        cases hs.1
  · rw [linked_status] at hs
    rcases List.mem_append.mp hd with hd | hd
    · exact ⟨hd, hs, rfl⟩
    · rw [List.mem_singleton.mp hd, hct] at hs
      cases hs

theorem Unstranded.ended (h : Unstranded s f) (hk : Kin s m f) (hpids : Pids s) (hp : p ∈ s.all)
    (v : BitVec 32) (htime : (∃ c, s.Child p c ∧ (s.tcb c).status = .hanging) →
      ∀ i ∈ s.all, (s.tcb i).pid = 1 → ¬ Asleep s i) : Unstranded (s.ended p v) (leave s f p) := by
  intro q hq hsleep c hc hleave hhang
  have hsleep' : Asleep s q := by
    rw [Asleep, ended_site, (ended_tcb v).2.1] at hsleep
    split at hsleep
    · cases hsleep.1
    · exact hsleep
  rw [(ended_tcb v).2.1] at hhang
  unfold leave at hleave
  split at hleave
  · rename_i hcp
    cases hleave
    exact htime ⟨c, (hk.child_iff hpids hp).mpr hcp, hhang⟩ _ hk.init.1 hk.init.2.1 hsleep'
  · exact h q hq hsleep' c hc hleave hhang

/-- An exit without a hanging child, or while init is awake, and no other. -/
theorem unstranded_ended_iff (h : Unstranded s f) (hk : Kin s m f) (hpids : Pids s) (hp : p ∈ s.all)
    (hu : s.site p = .user) (v : BitVec 32) : Unstranded (s.ended p v) (leave s f p) ↔
      ((∃ c, s.Child p c ∧ (s.tcb c).status = .hanging) →
        ∀ i ∈ s.all, (s.tcb i).pid = 1 → ¬ Asleep s i) := by
  refine ⟨fun ht => ?_, h.ended hk hpids hp v⟩
  rintro ⟨c, hchild, hhang⟩ i hi hpid hsleep
  obtain rfl := hpids.tcb_inj (.inl hi) (.inl hk.init.1) (hpid.trans hk.init.2.1.symm)
  have hip : initProc ≠ p := by
    rintro rfl
    rw [hsleep.1] at hu
    cases hu
  refine ht initProc hi ?_ c hchild.1 ?_ ((ended_tcb v).2.1.trans hhang)
  · rwa [Asleep, ended_site, if_neg hip, (ended_tcb v).2.1]
  · exact if_pos ((hk.child_iff hpids hp).mp hchild)

theorem hung_all : (s.hung p q).all = s.all := by
  rw [hung_eq]
  exact woken_all

theorem woken_status : ((s.woken q).tcb a).status =
    if a = q ∧ (s.tcb q).status = .waiting then .ready else (s.tcb a).status := by
  unfold State.woken
  split
  · rename_i hw
    rw [turn_status]
    simp [hw]
  · rename_i hw
    simp [hw]

theorem Unstranded.hung (h : Unstranded s f) (hk : Kin s m f) (hpids : Pids s) (hp : p ∈ s.all)
    (hq : q ∈ s.all) (hpar : (s.tcb p).parentPid = some (s.tcb q).pid) :
    Unstranded (s.hung p q) f := by
  have hf := ((hk.child_iff hpids hq).mp ⟨hp, hpar⟩).2
  intro r hr hsleep c hc hfc hhang
  rw [hung_eq] at hsleep hhang
  rw [Asleep, turn_site, turn_status, woken_site, woken_status] at hsleep
  rw [turn_status, woken_status] at hhang
  have hr' : r ∈ s.all := hung_all (p := p) (q := q) ▸ hr
  have hc' : c ∈ s.all := hung_all (p := p) (q := q) ▸ hc
  split at hsleep
  · cases hsleep.1
  · obtain ⟨hwait, hst⟩ := hsleep
    split at hst
    · cases hst
    · rename_i hrq
      split at hhang
      · -- the parent was woken
        rename_i hcp
        rw [hcp, hf] at hfc
        cases hfc
        exact hrq ⟨rfl, hst⟩
      · split at hhang
        · cases hhang
        · exact h r hr' ⟨hwait, hst⟩ c hc' hfc hhang

theorem Unstranded.reaped (h : Unstranded s f) (hn : s.all.Nodup) : Unstranded (s.reaped p c) f := by
  have hmem : ∀ a, a ∈ s.all.erase c ↔ a ≠ c ∧ a ∈ s.all := fun a => hn.mem_erase_iff
  refine h.mono (fun q hq hs => ?_) fun d hd hs => ?_
  · obtain ⟨hqc, hq⟩ := (hmem q).mp hq
    refine ⟨hq, ?_⟩
    have hqp : q ≠ p := by
      rintro rfl
      have := hs.1
      simp [State.reaped, State.setSite] at this
    rwa [Asleep, reaped_site hqp, reaped_status hqc] at hs
  · obtain ⟨hdc, hd⟩ := (hmem d).mp hd
    rw [reaped_status hdc] at hs
    exact ⟨hd, hs, rfl⟩

theorem Unstranded.block (h : Unstranded s f) (hk : Kin s m f) (hpids : Pids s) (hp : p ∈ s.all)
    (hno : ∀ c, s.Child p c → (s.tcb c).status ≠ .hanging) :
    Unstranded (s.turn p .waiting l .wait) f := by
  intro q hq hsleep c hc hf hhang
  rw [turn_status] at hhang
  split at hhang
  · cases hhang
  · by_cases hqp : q = p
    · rw [hqp] at hf
      exact hno c ((hk.child_iff hpids hp).mpr ⟨hc, hf⟩) hhang
    · rw [Asleep, turn_site, turn_status, if_neg hqp, if_neg hqp] at hsleep
      exact h q hq hsleep c hc hf hhang

/-! ## Runs -/

structure Inv (w : World) : Prop where
  pids : Pids w.sys
  kin : Kin w.sys w.maker w.parent
  log : Log w
  awake : Unstranded w.sys w.parent

namespace Inv

/-- One process changes, and exits no more than before. -/
theorem turn (h : Inv w) (hp : p ∈ w.sys.all) (hk : k = w.sys.site p ∨ k.Idle)
    (hx : x ≠ .hanging) (hend : k.Ending ↔ (w.sys.site p).Ending) (hne : k ≠ .exited)
    (hw : ¬ (k = .wait ∧ x = .waiting)) : Inv { w with sys := w.sys.turn p x l k } :=
  ⟨h.pids.calm (calm_turn hk), h.kin.turn hp hk (iff_of_false hx hne) hend.mp,
    h.log.quiet (quiet_turn hk hp hend), h.awake.turn hx hw⟩

theorem setBits (h : Inv w) {b : Bitmap} (hpids : Pids { w.sys with pidBm := b }) :
    Inv { w with sys := { w.sys with pidBm := b } } := by
  refine ⟨hpids, h.kin.setBits b, ?_, h.awake⟩
  exact ⟨h.log.once, h.log.old, h.log.exited, h.log.accounted, h.log.known, h.log.reapers⟩

theorem bear (h : Inv w) {r : Tcb} {i : Nat} {o : Option Addr} (hat : w.At p .user)
    (hi : w.sys.pidBm.findBlock 1 = some i) (hpid : r.pid = pidStart + i) (hr : r.status = .ready)
    (hk : k.makes = some w.sys.next) (ho : o = some p ∨ o = none)
    (hpar : r.parentPid = o.map fun q => (w.sys.tcb q).pid) :
    Inv (w.bear (w.sys.made p r k i) w.sys.next o) := by
  obtain ⟨hp, hst, hu⟩ := hat
  exact ⟨h.pids.made hi hpid hk, h.kin.made h.pids hp hst hr hk ho hpar,
    h.log.quiet (quiet_made h.pids hk hu), h.awake.made h.pids hk⟩

/-- `wait` goes on in one of three ways. -/
theorem wait (h : Inv w) (hat : w.At p .user ∨ w.At p .wait) {r : Outcome}
    (hs : sysWait p w.sys = .ok (r, t)) : Inv (w.returned t p r) := by
  have hp : p ∈ w.sys.all := hat.elim (·.1) (·.1)
  have hst : (w.sys.tcb p).status = .ready := hat.elim (·.2.1) (·.2.1)
  have hnot : ¬ (w.sys.site p).Ending := by
    rcases hat with hat | hat <;> rw [hat.2.2] <;> rintro (h | h) <;> cases h
  have hcase := wp_ok wp_sysWait hs
  cases r with
  | child c n v =>
    obtain ⟨hchild, hhang, rfl, rfl, rfl⟩ := hcase
    obtain ⟨hc, hf⟩ := (h.kin.child_iff h.pids hp).mp hchild
    exact ⟨h.pids.reaped h.kin.nodup hc (h.kin.out hc), h.kin.reaped hp hc hst hhang,
      h.log.reaped h.kin hp hnot hc hf hhang, h.awake.reaped h.kin.nodup⟩
  | error =>
    obtain ⟨-, rfl⟩ := hcase
    rw [setSite_eq_turn]
    refine h.turn hp (.inr ⟨rfl, nofun⟩) (by rw [hst]; exact nofun) ?_ nofun fun hk => nomatch hk.1
    exact iff_of_false (by rintro (h | h) <;> cases h) hnot
  | blocked =>
    obtain ⟨-, hno, rfl⟩ := hcase
    rw [block_eq_turn]
    have hend : Site.wait.Ending ↔ (w.sys.site p).Ending :=
      iff_of_false (by rintro (h | h) <;> cases h) hnot
    have hidle : Site.wait = w.sys.site p ∨ Site.wait.Idle := .inr ⟨rfl, nofun⟩
    exact ⟨h.pids.calm (calm_turn hidle), h.kin.turn hp hidle (iff_of_false nofun nofun) hend.mp,
      h.log.quiet (quiet_turn hidle hp hend), h.awake.block h.kin h.pids hp hno⟩

theorem woken (h : Inv w) (hq : q ∈ w.sys.all) : Inv { w with sys := w.sys.woken q } := by
  unfold State.woken
  split
  · rename_i hw
    refine h.turn hq (.inl rfl) nofun Iff.rfl (fun he => ?_) fun hk => nomatch hk.2
    rw [(h.kin.hanging q hq).mpr he] at hw
    cases hw
  · exact h

theorem step (h : Inv w) {e : Act} (htime : Timely w e) (hs : w.Step e w') : Inv w' := by
  have hplain : ∀ p, w.sys.site p = .user → ¬ (w.sys.site p).Ending := by
    rintro p hu (he | he) <;> rw [hu] at he <;> cases he
  cases e with
  | fork p =>
    obtain ⟨hat, c, t, hrun, rfl⟩ := hs
    obtain ⟨rfl, -, i, hi, rfl⟩ := wp_ok wp_sysFork hrun
    exact h.bear hat hi rfl rfl rfl (.inl rfl) rfl
  | start p n d =>
    obtain ⟨hat, c, t, hrun, rfl⟩ := hs
    obtain ⟨rfl, i, hi, rfl⟩ := wp_ok wp_threadStart hrun
    exact h.bear hat hi rfl rfl rfl (.inr rfl) rfl
  | link p =>
    obtain ⟨⟨c, hat⟩, t, hrun, rfl⟩ := hs
    obtain ⟨c', l, hm, rfl⟩ := wp_ok wp_linkChild hrun
    have hp : p ∈ w.sys.all := hat.elim (·.1) (·.1)
    have hst : (w.sys.tcb p).status = .ready := hat.elim (·.2.1) (·.2.1)
    exact ⟨h.pids.linked hp hm (h.kin.unborn p hp c' hm).2.1, h.kin.linked hp hm hst,
      h.log.quiet (quiet_linked h.kin hp hm), h.awake.linked h.kin hp hm⟩
  | drop p =>
    obtain ⟨⟨c, hp, hst, hsite⟩, t, hrun, rfl⟩ := hs
    obtain ⟨-, rfl⟩ := wp_ok wp_dropChild hrun
    rw [setSite_eq_turn]
    refine h.turn hp (.inr ⟨rfl, nofun⟩) (by rw [hst]; exact nofun) ?_ nofun fun hk => nomatch hk.1
    rw [hsite]
    exact iff_of_false (by rintro (h | h) <;> cases h) (by rintro (h | h) <;> cases h)
  | exec p n =>
    obtain ⟨⟨hp, hst, hu⟩, t, hrun, rfl⟩ := hs
    obtain rfl := wp_ok wp_sysExecv hrun
    rw [setName_eq_turn, hu, hst]
    refine h.turn hp (.inl hu.symm) nofun ?_ nofun fun hk => nomatch hk.1
    rw [hu]
  | exit p v =>
    obtain ⟨⟨hp, hst, hu⟩, t, hrun, rfl⟩ := hs
    obtain ⟨hpar, rfl⟩ := wp_ok wp_sysExit hrun
    exact ⟨h.pids.calm (calm_ended v), h.kin.ended h.pids hp hu hst hpar v,
      h.log.ended hp hu v (h.kin.out hp) (h.pids.old p (.inl hp)),
      h.awake.ended h.kin h.pids hp v htime⟩
  | wake p =>
    obtain ⟨⟨hp, hst, hsite⟩, t, hrun, rfl⟩ := hs
    obtain ⟨q, hq, hpar, rfl⟩ := wp_ok wp_sysExitWake hrun
    have hw := h.woken hq
    have hidle : Site.exited = (w.sys.woken q).site p ∨ Site.exited.Idle := .inr ⟨rfl, nofun⟩
    have hend : Site.exited.Ending ↔ ((w.sys.woken q).site p).Ending := by
      rw [woken_site, hsite]
      exact iff_of_true (.inr rfl) (.inl rfl)
    have hawake := h.awake.hung h.kin h.pids hp hq hpar
    have hkin := h.kin.hung hp hq hsite
    rw [hung_eq] at hawake hkin ⊢
    exact ⟨hw.pids.calm (calm_turn hidle), hkin,
      hw.log.quiet (quiet_turn hidle (by rwa [woken_all]) hend), hawake⟩
  | wait p =>
    obtain ⟨hat, r, t, hrun, rfl⟩ := hs
    exact h.wait hat hrun
  | release p =>
    obtain ⟨⟨n, hp, hst, hsite⟩, t, hrun, rfl⟩ := hs
    obtain ⟨n', hn, hle, rfl⟩ := wp_ok wp_sysWaitEnd hrun
    have hpids := h.pids.released hp hn hle
    rw [released_eq] at hpids ⊢
    have hturn : Inv { w with sys := w.sys.turn p (w.sys.tcb p).status (w.sys.tcb p).nameLength .user } := by
      refine h.turn hp (.inr ⟨rfl, nofun⟩) (by rw [hst]; exact nofun) ?_ nofun fun hk => nomatch hk.1
      rw [hsite]
      exact iff_of_false (by rintro (h | h) <;> cases h) (by rintro (h | h) <;> cases h)
    exact hturn.setBits hpids
  | sleep p =>
    obtain ⟨hp, hst, hne, rfl⟩ := hs
    rw [setStatus_eq_turn]
    refine h.turn hp (.inl rfl) nofun Iff.rfl (fun he => ?_) fun hk => hne hk.1
    rw [(h.kin.hanging p hp).mpr he] at hst
    cases hst
  | rouse p =>
    obtain ⟨hp, hst, rfl⟩ := hs
    rw [setStatus_eq_turn]
    refine h.turn hp (.inl rfl) nofun Iff.rfl (fun he => ?_) fun hk => nomatch hk.2
    rw [(h.kin.hanging p hp).mpr he] at hst
    cases hst

end Inv

/-- What the parents see. -/
structure WaitLaw (w : World) : Prop where
  pids : ∀ p ∈ w.sys.all, ∀ q ∈ w.sys.all, (w.sys.tcb p).pid = (w.sys.tcb q).pid → p = q
  /-- Nobody is blocked in `sys_wait` while a child hangs. -/
  awake : ∀ p ∈ w.sys.all, Asleep w.sys p → ∀ c, w.sys.Child p c → (w.sys.tcb c).status ≠ .hanging
  /-- The children that the pids give are those of the process itself or of a process that left them
  to init. -/
  family : ∀ p ∈ w.sys.all, ∀ c, w.sys.Child p c ↔ c ∈ w.sys.all ∧ w.parent c = some p
  adopted : ∀ c ∈ w.sys.all, w.parent c = w.maker c ∨ w.parent c = some initProc
  exits : (w.exits.map Prod.fst).Nodup
  hanging : ∀ c ∈ w.sys.all, (w.sys.tcb c).status = .hanging →
    (c, (w.sys.tcb c).exitStatus) ∈ w.exits
  returned : ∀ e ∈ w.exits, Pending w e ∨ Done w e
  returns : ∀ r ∈ w.returns, ∃ v, (r.child, v) ∈ w.exits
  /-- `sys_wait` fails for a process without a child only. -/
  wait : ∀ p, w.At p .user ∨ w.At p .wait → ∃ r t, sysWait p w.sys = .ok (r, t) ∧
    (r = .error ↔ ∀ c ∈ w.sys.all, w.parent c ≠ some p)
  /-- The pid that a reap gives back is the child's, and nobody else's. -/
  release : ∀ p ∈ w.sys.all, ∀ n, w.sys.site p = .reaping n →
    (∃ r ∈ w.returns, r.waiter = p ∧ r.pid = n ∧ (w.sys.tcb r.child).pid = n ∧
      r.child ∉ w.sys.all) ∧
    (∀ q ∈ w.sys.all, (w.sys.tcb q).pid ≠ n) ∧
    ∀ t, sysWaitEnd p w.sys = .ok ((), t) → t.pidBm = w.sys.pidBm.setValue (n - pidStart) false
  /-- The condition on an exit is the right one. -/
  exact : ∀ p v w', w.Step (.exit p v) w' →
    ((∀ q ∈ w'.sys.all, Asleep w'.sys q → ∀ c, w'.sys.Child q c → (w'.sys.tcb c).status ≠ .hanging) ↔
      Timely w (.exit p v))

theorem Inv.unstranded_iff (h : Inv w) : Unstranded w.sys w.parent ↔
    ∀ p ∈ w.sys.all, Asleep w.sys p → ∀ c, w.sys.Child p c → (w.sys.tcb c).status ≠ .hanging := by
  refine forall₃_congr fun p hp _ => forall_congr' fun c => ?_
  rw [h.kin.child_iff h.pids hp, and_imp]

theorem Inv.waitLaw (h : Inv w) : WaitLaw w := by
  refine ⟨fun p hp q hq => h.pids.tcb_inj (.inl hp) (.inl hq), h.unstranded_iff.mp h.awake,
    fun p hp c => h.kin.child_iff h.pids hp, fun c hc => h.kin.adopted c (.inl hc), h.log.once,
    fun c hc hs => h.log.exited c hc (.inr ((h.kin.hanging c hc).mp hs)), h.log.accounted, h.log.known,
    fun p hat => ?_, fun p hp n hs => ⟨?_, fun q hq hpid => ?_, fun t ht => ?_⟩, fun p v w' hs => ?_⟩
  · have hp : p ∈ w.sys.all := hat.elim (·.1) (·.1)
    obtain ⟨r, t, hrun, hcase⟩ := ok_of_wp (wp_sysWait (s := w.sys) (p := p))
    refine ⟨r, t, hrun, ?_⟩
    have hchild : (∀ c, ¬ w.sys.Child p c) ↔ ∀ c ∈ w.sys.all, w.parent c ≠ some p := by
      refine forall_congr' fun c => ?_
      rw [h.kin.child_iff h.pids hp, not_and]
    cases r with
    | child c n v => exact iff_of_false nofun fun hno => (hchild.mpr hno) c hcase.1
    | error => exact iff_of_true rfl (hchild.mp hcase.1)
    | blocked =>
      obtain ⟨⟨c, hc⟩, -⟩ := hcase
      exact iff_of_false nofun fun hno => (hchild.mpr hno) c hc
  · obtain ⟨r, hr, hrp, hrn⟩ := h.log.reapers p hp n hs
    obtain ⟨v, hv⟩ := h.log.known r hr
    rcases h.log.accounted _ hv with ⟨-, -, -, hno⟩ | ⟨hout, r', hr', -, hpid, -⟩
    · exact absurd rfl (hno r hr)
    · have hmem : r ∈ w.returns.filter (·.child = r.child) := List.mem_filter.mpr ⟨hr, by simp⟩
      rw [hr', List.mem_singleton] at hmem
      subst hmem
      exact ⟨r, hr, hrp, hrn, hpid.symm.trans hrn, hout⟩
  · have := h.pids.inj (.tcb q) (.reaper p) n ⟨.inl hq, hpid⟩ ⟨hp, hs⟩
    cases this
  · obtain ⟨n', hn, -, rfl⟩ := wp_ok wp_sysWaitEnd ht
    rw [hs] at hn
    cases hn
    rfl
  · obtain ⟨⟨hp, hst, hu⟩, t, hrun, rfl⟩ := hs
    obtain ⟨hpar, rfl⟩ := wp_ok wp_sysExit hrun
    have hpids := h.pids.calm (calm_ended (p := p) v)
    have hkin := h.kin.ended h.pids hp hu hst hpar v
    refine Iff.trans ?_ (unstranded_ended_iff h.awake h.kin h.pids hp hu v)
    refine forall₃_congr fun q hq _ => forall_congr' fun c => ?_
    change (w.sys.ended p v).Child q c → _ ↔ _
    rw [hkin.child_iff hpids hq, and_imp]
    rfl

theorem Inv.boot (bits : Bytes.Store) : Inv (.boot bits) := by
  have hmem : ∀ a, Member (.boot bits) a → a = 0 ∨ a = 1 ∨ a = 2 := by
    rintro a (ha | ⟨q, -, hm⟩)
    · simpa [State.boot, initProc] using ha
    · cases hm
  have hholds : ∀ x n, Holds (.boot bits) x n →
      x = .tcb 0 ∧ n = 1 ∨ x = .tcb 1 ∧ n = 0 ∨ x = .tcb 2 ∧ n = 3 := by
    rintro (a | q) n hx
    · obtain ⟨ha, rfl⟩ := hx
      rcases hmem a ha with rfl | rfl | rfl
      · exact .inl ⟨rfl, rfl⟩
      · exact .inr (.inl ⟨rfl, rfl⟩)
      · exact .inr (.inr ⟨rfl, rfl⟩)
    · cases hx.2
  refine ⟨⟨fun a ha => ?_, fun x y n hx hy => ?_, fun x n hx => ?_⟩,
    ⟨show [0, 1, 2].Nodup by decide, nofun, nofun, fun a ha => ?_, nofun, fun _ _ => .inl rfl,
      fun a ha => ?_,
      List.mem_cons_self, rfl, rfl, ?_⟩,
    ⟨List.nodup_nil, nofun, fun a _ hend => ?_, nofun, nofun, nofun⟩, nofun⟩
  · have hlt : a < 3 := by rcases hmem a ha with rfl | rfl | rfl <;> decide
    exact hlt
  · rcases hholds x n hx with ⟨rfl, hn⟩ | ⟨rfl, hn⟩ | ⟨rfl, hn⟩ <;>
      rcases hholds y n hy with ⟨rfl, hn'⟩ | ⟨rfl, hn'⟩ | ⟨rfl, hn'⟩ <;>
      first | rfl | (rw [hn] at hn'; cases hn')
  · rcases hholds x n hx with ⟨-, hn⟩ | ⟨-, hn⟩ | ⟨-, hn⟩
    · exact .inr ⟨0, hn, show (0x07#8).getLsbD 0 = true by decide⟩
    · exact .inl hn
    · exact .inr ⟨2, hn, show (0x07#8).getLsbD 2 = true by decide⟩
  · rcases hmem a ha with rfl | rfl | rfl <;> rfl
  · rcases hmem a (.inl ha) with rfl | rfl | rfl <;> exact iff_of_false nofun nofun
  · rintro (he | he) <;> cases he
  · rcases hend with he | he <;> cases he

/-- No parent is left waiting as long as the exits are timely. -/
theorem waits_answered (bits : Bytes.Store) {as : List Act}
    (h : Run (Guarded Timely World.Step) (.boot bits) as w) : WaitLaw w :=
  (h.guarded_invariant (fun _ _ _ hi htime hs => hi.step htime hs) (Inv.boot bits)).waitLaw

/-- A fork with room in the first byte of the map. -/
theorem World.step_fork (hat : w.At p .user) (hd : (w.sys.tcb p).pgdir = true)
    (hl : 0 < w.sys.pidBm.mapBytesLength) (hb : w.sys.pidBm.bits 0 ≠ 0xff#8) :
    w.Step (.fork p) (w.bear (w.sys.made p { w.sys.tcb p with
      pid := pidStart + Bitmap.clearBit (w.sys.pidBm.bits 0), status := .ready
      parentPid := some (w.sys.tcb p).pid } (.forking w.sys.next)
      (Bitmap.clearBit (w.sys.pidBm.bits 0))) w.sys.next (some p)) := by
  refine ⟨hat, _, _, run_eq_of_wp ?_, rfl⟩
  simp only [sysFork, getKernelPage, tcbAt, allocatePid, setTcb, goto, wp_bind, wp_get, wp_modify,
    wp_pure, wp_check, wp_need, Bitmap.findBlock_first hl hb]
  refine ⟨fun _ => ⟨?_, nofun⟩, fun h => h hd⟩
  rintro i ⟨⟩
  exact ⟨trivial, rfl⟩

/-- Init forks a child, waits, and is woken by the exit. -/
theorem waits_answered_once :
    ∃ w, Run (Guarded Timely World.Step) (.boot fun _ => 0)
      [.fork 0, .link 0, .wait 0, .exit 3 7, .wake 3, .wait 0, .release 0] w ∧ WaitLaw w ∧
      w.returns.map (fun r => (r.waiter, r.child, r.status)) = [(0, 3, 7)] := by
  have h : ∃ w, Run (Guarded Timely World.Step) (.boot fun _ => 0)
      [.fork 0, .link 0, .wait 0, .exit 3 7, .wake 3, .wait 0, .release 0] w ∧
      w.returns.map (fun r => (r.waiter, r.child, r.status)) = [(0, 3, 7)] := by
    refine ⟨_, .cons ⟨trivial, World.step_fork ⟨by decide, rfl, rfl⟩ rfl (by decide) (by decide)⟩ <|
      .cons ⟨trivial, ⟨3, .inl ⟨by decide, rfl, rfl⟩⟩, _, rfl, rfl⟩ <|
      .cons ⟨trivial, .inl ⟨by decide, rfl, rfl⟩, _, _, rfl, rfl⟩ <|
      .cons ⟨?_, ⟨by decide, rfl, rfl⟩, _, rfl, rfl⟩ <|
      .cons ⟨trivial, ⟨by decide, rfl, rfl⟩, _, rfl, rfl⟩ <|
      .cons ⟨trivial, .inr ⟨by decide, rfl, rfl⟩, _, _, rfl, rfl⟩ <|
      .single ⟨trivial, ⟨4, by decide, rfl, rfl⟩, _, rfl, rfl⟩, rfl⟩
    -- the only other child there is init's
    rintro ⟨c, ⟨hc, hpar⟩, -⟩
    have hc' : c ∈ [0, 1, 2, 3] := hc
    fin_cases hc' <;> exact absurd hpar (by decide)
  obtain ⟨w, hw, hr⟩ := h
  exact ⟨w, hw, waits_answered _ hw, hr⟩

/-- Process 4 exits while its child 5 hangs and init waits for 3: it leaves a child that hangs to init,
and wakes its own parent only. -/
theorem init_stranded :
    ∃ w as, Run World.Step (.boot fun _ => 0) as w ∧ ¬ WaitLaw w := by
  refine ⟨_, [.fork 0, .link 0, .wait 0, .exec 3 2, .fork 3, .link 3, .fork 4, .link 4, .exit 5 7,
    .wake 5, .exit 4 0, .wake 4],
    .cons (World.step_fork ⟨by decide, rfl, rfl⟩ rfl (by decide) (by decide)) <|
    .cons ⟨⟨3, .inl ⟨by decide, rfl, rfl⟩⟩, _, rfl, rfl⟩ <|
    .cons ⟨.inl ⟨by decide, rfl, rfl⟩, _, _, rfl, rfl⟩ <|
    .cons ⟨⟨by decide, rfl, rfl⟩, _, rfl, rfl⟩ <|
    .cons (World.step_fork ⟨by decide, rfl, rfl⟩ rfl (by decide) (by decide)) <|
    .cons ⟨⟨4, .inl ⟨by decide, rfl, rfl⟩⟩, _, rfl, rfl⟩ <|
    .cons (World.step_fork ⟨by decide, rfl, rfl⟩ rfl (by decide) (by decide)) <|
    .cons ⟨⟨5, .inl ⟨by decide, rfl, rfl⟩⟩, _, rfl, rfl⟩ <|
    .cons ⟨⟨by decide, rfl, rfl⟩, _, rfl, rfl⟩ <|
    .cons ⟨⟨by decide, rfl, rfl⟩, _, rfl, rfl⟩ <|
    .cons ⟨⟨by decide, rfl, rfl⟩, _, rfl, rfl⟩ <|
    .single ⟨⟨by decide, rfl, rfl⟩, _, rfl, rfl⟩, fun h => ?_⟩
  exact h.awake 0 (by decide) ⟨rfl, rfl⟩ 5 ⟨by decide, rfl⟩ rfl

end Frog.Proc
