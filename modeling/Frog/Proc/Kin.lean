import Frog.Proc.Pids

/-!
# Who is whose child

The `parent_pid` of every process is the pid of the process that is to wait for it, and that one
neither exits nor is gone. `Kin s m f` says so with the makers `m` and the parents `f`.
-/

namespace Frog.Proc

set_option autoImplicit false
open Prog Thread

variable {s t : State} {p q a c : Addr} {n : Pid} {k : Site} {x : Status} {l : Nat}
  {m f : Addr → Option Addr}

def Site.Ending (k : Site) : Prop := k = .exiting ∨ k = .exited

structure Kin (s : State) (m f : Addr → Option Addr) : Prop where
  nodup : s.all.Nodup
  unborn : ∀ p ∈ s.all, ∀ c, (s.site p).makes = some c → c ∉ s.all ∧ s.site c = .user ∧
    (s.tcb c).status = .ready ∧ (f c = some p ∨ f c = none)
  sole : ∀ p ∈ s.all, ∀ q ∈ s.all, ∀ c, (s.site p).makes = some c → (s.site q).makes = some c → p = q
  kin : ∀ a, Member s a → (s.tcb a).parentPid = (f a).map fun q => (s.tcb q).pid
  alive : ∀ a q, Member s a → f a = some q → q ∈ s.all ∧ ¬ (s.site q).Ending
  adopted : ∀ a, Member s a → f a = m a ∨ f a = some initProc
  hanging : ∀ a ∈ s.all, (s.tcb a).status = .hanging ↔ s.site a = .exited
  init : initProc ∈ s.all ∧ (s.tcb initProc).pid = 1 ∧ f initProc = none ∧
    ¬ (s.site initProc).Ending

theorem Kin.out (h : Kin s m f) (hc : c ∈ s.all) : ∀ q ∈ s.all, (s.site q).makes ≠ some c :=
  fun q hq hm => (h.unborn q hq c hm).1 hc

/-- A process finds its children by its pid. -/
theorem Kin.child_iff (h : Kin s m f) (hpids : Pids s) (hp : p ∈ s.all) :
    s.Child p c ↔ c ∈ s.all ∧ f c = some p := by
  refine and_congr_right fun hc => ?_
  rw [h.kin c (.inl hc), Option.map_eq_some_iff]
  constructor
  · rintro ⟨q, hq, hpid⟩
    obtain ⟨hqs, -⟩ := h.alive c q (.inl hc) hq
    rwa [hpids.tcb_inj (.inl hqs) (.inl hp) hpid] at hq
  · intro hf
    exact ⟨p, hf, rfl⟩

/-! ## A change of one process -/

def State.turn (s : State) (p : Addr) (x : Status) (l : Nat) (k : Site) : State :=
  { s with
    tcb := Function.update s.tcb p { s.tcb p with status := x, nameLength := l }
    site := Function.update s.site p k }

theorem turn_site : (s.turn p x l k).site q = if q = p then k else s.site q :=
  Function.update_apply ..

theorem turn_tcb_of_ne (h : q ≠ p) : (s.turn p x l k).tcb q = s.tcb q := Function.update_of_ne h ..

theorem turn_status : ((s.turn p x l k).tcb q).status = if q = p then x else (s.tcb q).status := by
  by_cases h : q = p
  · subst h
    simp [State.turn]
  · rw [turn_tcb_of_ne h, if_neg h]

theorem turn_pid : ((s.turn p x l k).tcb q).pid = (s.tcb q).pid := by
  by_cases h : q = p
  · subst h
    simp [State.turn]
  · rw [turn_tcb_of_ne h]

theorem turn_parentPid : ((s.turn p x l k).tcb q).parentPid = (s.tcb q).parentPid := by
  by_cases h : q = p
  · subst h
    simp [State.turn]
  · rw [turn_tcb_of_ne h]

theorem turn_exitStatus : ((s.turn p x l k).tcb q).exitStatus = (s.tcb q).exitStatus := by
  by_cases h : q = p
  · subst h
    simp [State.turn]
  · rw [turn_tcb_of_ne h]

theorem setSite_eq_turn (p : Addr) (k : Site) :
    s.setSite p k = s.turn p (s.tcb p).status (s.tcb p).nameLength k := by
  simp [State.setSite, State.turn]

theorem setStatus_eq_turn (p : Addr) (x : Status) :
    s.setStatus p x = s.turn p x (s.tcb p).nameLength (s.site p) := by
  simp [State.setStatus, State.setTcb, State.turn]

theorem setName_eq_turn (p : Addr) (l : Nat) : s.setTcb p { s.tcb p with nameLength := l } =
    s.turn p (s.tcb p).status l (s.site p) := by
  simp [State.setTcb, State.turn]

theorem block_eq_turn (p : Addr) : (s.setSite p .wait).setStatus p .waiting =
    s.turn p .waiting (s.tcb p).nameLength .wait := by
  simp [State.setStatus, State.setTcb, State.setSite, State.turn]

theorem calm_turn (hk : k = s.site p ∨ k.Idle) : Calm s (s.turn p x l k) := by
  refine ⟨rfl, rfl, rfl, fun _ => turn_pid, fun q => ?_⟩
  rw [turn_site]
  split
  · rename_i hqp
    rw [hqp]
    exact hk
  · exact .inl rfl

theorem Kin.turn (h : Kin s m f) (hp : p ∈ s.all) (hk : k = s.site p ∨ k.Idle)
    (hx : x = .hanging ↔ k = .exited) (hend : k.Ending → (s.site p).Ending) :
    Kin (s.turn p x l k) m f := by
  have hcalm : Calm s (s.turn p x l k) := calm_turn hk
  have hmakes : ∀ q, q ∈ s.all → ∀ c, ((s.turn p x l k).site q).makes = some c →
      (s.site q).makes = some c := by
    intro q hq c hm
    rcases hcalm.site q with he | hi
    · exact he ▸ hm
    · rw [hi.1] at hm
      cases hm
  refine ⟨h.nodup, fun q hq c hm => ?_, fun q hq q' hq' c hm hm' => ?_, fun a ha => ?_,
    fun a q ha hf => ?_, fun a ha => h.adopted a (hcalm.member ha), fun a ha => ?_, h.init.1,
    turn_pid.trans h.init.2.1, h.init.2.2.1, ?_⟩
  · obtain ⟨hc, hsite, hst, hpar⟩ := h.unborn q hq c (hmakes q hq c hm)
    have hcp : c ≠ p := fun he => hc (he ▸ hp)
    rw [turn_site, turn_status, if_neg hcp, if_neg hcp]
    exact ⟨hc, hsite, hst, hpar⟩
  · exact h.sole q hq q' hq' c (hmakes q hq c hm) (hmakes q' hq' c hm')
  · rw [turn_parentPid, h.kin a (hcalm.member ha)]
    simp only [turn_pid]
  · obtain ⟨hq, hne⟩ := h.alive a q (hcalm.member ha) hf
    refine ⟨hq, ?_⟩
    rw [turn_site]
    split
    · rename_i hqp
      subst hqp
      exact fun he => hne (hend he)
    · exact hne
  · rw [turn_status, turn_site]
    split
    · exact hx
    · exact h.hanging a ha
  · rw [turn_site]
    split
    · rename_i hip
      subst hip
      exact fun he => h.init.2.2.2 (hend he)
    · exact h.init.2.2.2

/-! ## New processes -/

theorem Kin.made (h : Kin s m f) (hpids : Pids s) (hp : p ∈ s.all) {r : Tcb} {i : Nat}
    {o : Option Addr} (hst : (s.tcb p).status = .ready) (hr : r.status = .ready)
    (hk : k.makes = some s.next) (ho : o = some p ∨ o = none)
    (hpar : r.parentPid = o.map fun q => (s.tcb q).pid) :
    Kin (s.made p r k i) (Function.update m s.next o) (Function.update f s.next o) := by
  have hold : ∀ q ∈ s.all, q ≠ s.next := fun q hq => (hpids.old q (.inl hq)).ne
  have hnp : s.next ≠ p := (hold p hp).symm
  have hend : ¬ k.Ending := by
    rintro (rfl | rfl) <;> cases hk
  have hsite : ∀ q ∈ s.all, (s.made p r k i).site q = if q = p then k else s.site q :=
    fun q hq => made_site r k i (hold q hq)
  have hmakes : ∀ q ∈ s.all, ∀ c, ((s.made p r k i).site q).makes = some c →
      q = p ∧ c = s.next ∨ (s.site q).makes = some c ∧ c ≠ s.next := by
    intro q hq c hm
    rw [hsite q hq] at hm
    split at hm
    · rename_i hqp
      rw [hk] at hm
      cases hm
      exact .inl ⟨hqp, rfl⟩
    · exact .inr ⟨hm, (hpids.old c (.inr ⟨q, hq, hm⟩)).ne⟩
  have hmem : ∀ a, Member (s.made p r k i) a → a = s.next ∨ Member s a ∧ a ≠ s.next := fun a ha =>
    (hpids.made_member hk ha).imp_right fun ha => ⟨ha, (hpids.old a ha).ne⟩
  refine ⟨h.nodup, fun q hq c hm => ?_, fun q hq q' hq' c hm hm' => ?_, fun a ha => ?_,
    fun a q ha hf => ?_, fun a ha => ?_, fun a ha => ?_, h.init.1, ?_, ?_, ?_⟩
  · rcases hmakes q hq c hm with ⟨rfl, rfl⟩ | ⟨hm, hcn⟩
    · refine ⟨fun hc => hold _ hc rfl, ?_, ?_, ?_⟩
      · simp [State.made, hnp]
      · rw [made_tcb_next]
        exact hr
      · rw [Function.update_self]
        exact ho
    · obtain ⟨hc, hcs, hct, hcf⟩ := h.unborn q hq c hm
      have hcp : c ≠ p := fun he => hc (he ▸ hp)
      rw [made_site _ _ _ hcn, if_neg hcp, made_tcb _ _ _ hcn, Function.update_of_ne hcn]
      exact ⟨hc, hcs, hct, hcf⟩
  · rcases hmakes q hq c hm with ⟨rfl, hc⟩ | ⟨hm, hc⟩ <;>
      rcases hmakes q' hq' c hm' with ⟨rfl, hc'⟩ | ⟨hm', hc'⟩
    · rfl
    · exact absurd hc hc'
    · exact absurd hc' hc
    · exact h.sole q hq q' hq' c hm hm'
  · rcases hmem a ha with rfl | ⟨ha, han⟩
    · rw [made_tcb_next, Function.update_self, hpar]
      rcases ho with rfl | rfl
      · rw [Option.map_some, Option.map_some, made_tcb _ _ _ (hold p hp)]
      · rfl
    · rw [made_tcb _ _ _ han, Function.update_of_ne han, h.kin a ha]
      refine Option.map_congr fun q hq => ?_
      rw [made_tcb _ _ _ (hold q (h.alive a q ha hq).1)]
  · rcases hmem a ha with rfl | ⟨ha, han⟩
    · rw [Function.update_self] at hf
      rcases ho with rfl | rfl
      · cases hf
        refine ⟨hp, ?_⟩
        rwa [hsite _ hp, if_pos rfl]
      · cases hf
    · rw [Function.update_of_ne han] at hf
      obtain ⟨hq, hne⟩ := h.alive a q ha hf
      refine ⟨hq, ?_⟩
      rw [hsite q hq]
      split
      · exact hend
      · exact hne
  · rcases hmem a ha with rfl | ⟨ha, han⟩
    · rw [Function.update_self, Function.update_self]
      exact .inl rfl
    · rw [Function.update_of_ne han, Function.update_of_ne han]
      exact h.adopted a ha
  · rw [made_tcb _ _ _ (hold a ha), hsite a ha]
    split
    · rename_i hap
      rw [hap, hst]
      refine iff_of_false (by simp) ?_
      rintro rfl
      exact hend (.inr rfl)
    · exact h.hanging a ha
  · rw [made_tcb _ _ _ (hold _ h.init.1)]
    exact h.init.2.1
  · rw [Function.update_of_ne (hold _ h.init.1)]
    exact h.init.2.2.1
  · rw [hsite _ h.init.1]
    split
    · exact hend
    · exact h.init.2.2.2

theorem linked_site : (s.linked p c l).site q = if q = p then .user else s.site q :=
  Function.update_apply ..

theorem linked_tcb (hq : q ≠ c) : (s.linked p c l).tcb q = s.tcb q := Function.update_of_ne hq ..

theorem linked_tcb_self :
    (s.linked p c l).tcb c = { s.tcb c with nameLength := (s.tcb c).nameLength + l } :=
  Function.update_self ..

theorem linked_status : ((s.linked p c l).tcb q).status = (s.tcb q).status := by
  by_cases hq : q = c
  · rw [hq, linked_tcb_self]
  · rw [linked_tcb hq]

theorem linked_parentPid : ((s.linked p c l).tcb q).parentPid = (s.tcb q).parentPid := by
  by_cases hq : q = c
  · rw [hq, linked_tcb_self]
  · rw [linked_tcb hq]

theorem Kin.linked (h : Kin s m f) (hp : p ∈ s.all) (hm : (s.site p).makes = some c)
    (hst : (s.tcb p).status = .ready) : Kin (s.linked p c l) m f := by
  obtain ⟨hc, hcs, hct, hcf⟩ := h.unborn p hp c hm
  have hcp : c ≠ p := fun he => hc (he ▸ hp)
  have hmakes : ∀ q ∈ (s.linked p c l).all, ∀ d, ((s.linked p c l).site q).makes = some d →
      q ∈ s.all ∧ (s.site q).makes = some d ∧ d ≠ c := by
    intro q hq d hd
    rw [linked_site] at hd
    split at hd
    · cases hd
    · rename_i hqp
      rcases List.mem_append.mp hq with hq | hq
      · exact ⟨hq, hd, fun hdc => hqp (h.sole q hq p hp c (hdc ▸ hd) hm)⟩
      · rw [List.mem_singleton.mp hq, hcs] at hd
        cases hd
  have hin : ∀ a, a ∈ s.all → a ∈ (s.linked p c l).all := fun a => List.mem_append_left _
  have hmem : ∀ a, Member (s.linked p c l) a → Member s a := fun a => linked_member hp hm hcs
  refine ⟨List.nodup_append_comm.mp (List.nodup_cons.mpr ⟨hc, h.nodup⟩), fun q hq d hd => ?_,
    fun q hq q' hq' d hd hd' => ?_, fun a ha => ?_, fun a q ha hf => ?_,
    fun a ha => h.adopted a (hmem a ha), fun a ha => ?_, hin _ h.init.1,
    (linked_pid l _).trans h.init.2.1, h.init.2.2.1, ?_⟩
  · obtain ⟨hq, hd, hdc⟩ := hmakes q hq d hd
    obtain ⟨hda, hds, hdt, hdf⟩ := h.unborn q hq d hd
    have hdp : d ≠ p := fun he => hda (he ▸ hp)
    rw [linked_site, if_neg hdp, linked_status]
    refine ⟨fun hd => ?_, hds, hdt, hdf⟩
    rcases List.mem_append.mp hd with hd | hd
    · exact hda hd
    · exact hdc (List.mem_singleton.mp hd)
  · obtain ⟨hq, hd, -⟩ := hmakes q hq d hd
    obtain ⟨hq', hd', -⟩ := hmakes q' hq' d hd'
    exact h.sole q hq q' hq' d hd hd'
  · rw [linked_parentPid, h.kin a (hmem a ha)]
    simp only [linked_pid]
  · obtain ⟨hq, hne⟩ := h.alive a q (hmem a ha) hf
    refine ⟨hin q hq, ?_⟩
    rw [linked_site]
    split
    · rintro (he | he) <;> cases he
    · exact hne
  · rw [linked_status, linked_site]
    rcases List.mem_append.mp ha with ha | ha
    · split
      · rename_i hap
        rw [hap, hst]
        exact iff_of_false nofun nofun
      · exact h.hanging a ha
    · rw [List.mem_singleton.mp ha, if_neg hcp, hct, hcs]
      exact iff_of_false nofun nofun
  · rw [linked_site]
    split
    · rintro (he | he) <;> cases he
    · exact h.init.2.2.2

/-! ## Ends -/

theorem ended_site (v : BitVec 32) :
    (s.ended p v).site q = if q = p then .exiting else s.site q := Function.update_apply ..

/-- What an exit does to a TCB. -/
theorem ended_tcb (v : BitVec 32) : ((s.ended p v).tcb q).pid = (s.tcb q).pid ∧
    ((s.ended p v).tcb q).status = (s.tcb q).status ∧
    ((s.ended p v).tcb q).exitStatus = (if q = p then v else (s.tcb q).exitStatus) ∧
    ((s.ended p v).tcb q).parentPid = if s.Child p q then some 1 else (s.tcb q).parentPid := by
  by_cases hq : q = p
  · subst hq
    simp only [State.ended, State.setSite, State.adopt, State.setTcb, Function.update_self, if_pos]
    by_cases hc : q ∈ s.all ∧ (s.tcb q).parentPid = some (s.tcb q).pid
    · rw [if_pos hc, if_pos (c := s.Child q q) hc]
      exact ⟨rfl, rfl, rfl, rfl⟩
    · rw [if_neg hc, if_neg (c := s.Child q q) hc]
      exact ⟨rfl, rfl, rfl, rfl⟩
  · simp only [State.ended, State.setSite, State.adopt, State.setTcb, if_neg hq,
      Function.update_of_ne hq]
    by_cases hc : q ∈ s.all ∧ (s.tcb q).parentPid = some (s.tcb p).pid
    · rw [if_pos hc, if_pos (c := s.Child p q) hc]
      exact ⟨rfl, rfl, rfl, rfl⟩
    · rw [if_neg hc, if_neg (c := s.Child p q) hc]
      exact ⟨rfl, rfl, rfl, rfl⟩

theorem calm_ended (v : BitVec 32) : Calm s (s.ended p v) := by
  refine ⟨rfl, rfl, rfl, fun _ => (ended_tcb v).1, fun q => ?_⟩
  rw [ended_site]
  split
  · exact .inr ⟨rfl, nofun⟩
  · exact .inl rfl

/-- The children that a process leaves to init. -/
def leave (s : State) (f : Addr → Option Addr) (p c : Addr) : Option Addr :=
  if c ∈ s.all ∧ f c = some p then some initProc else f c

theorem Kin.ended (h : Kin s m f) (hpids : Pids s) (hp : p ∈ s.all) (hu : s.site p = .user)
    (hst : (s.tcb p).status = .ready) (hpar : (s.tcb p).parentPid ≠ none) (v : BitVec 32) :
    Kin (s.ended p v) m (leave s f p) := by
  have hcalm : Calm s (s.ended p v) := calm_ended v
  have hne : initProc ≠ p := by
    rintro rfl
    rw [h.kin _ (.inl hp), h.init.2.2.1] at hpar
    exact hpar rfl
  have hsite : ∀ q, q ≠ p → (s.ended p v).site q = s.site q := fun q hq => by
    rw [ended_site, if_neg hq]
  have hmakes : ∀ q, ∀ c, ((s.ended p v).site q).makes = some c → q ≠ p ∧ (s.site q).makes = some c := by
    intro q c hm
    rw [ended_site] at hm
    split at hm
    · cases hm
    · rename_i hqp
      exact ⟨hqp, hm⟩
  have hleave : ∀ a q, leave s f p a = some q → Member s a →
      q = initProc ∨ f a = some q ∧ q ≠ p := by
    intro a q hf ha
    unfold leave at hf
    split at hf
    · cases hf
      exact .inl rfl
    · rename_i hno
      refine .inr ⟨hf, ?_⟩
      rintro rfl
      rcases ha with ha | ⟨q', hq', hm⟩
      · exact hno ⟨ha, hf⟩
      · -- the maker of an unborn child does not exit
        rcases (h.unborn q' hq' a hm).2.2.2 with hfa | hfa
        · rw [hf] at hfa
          cases hfa
          rw [hu] at hm
          cases hm
        · rw [hf] at hfa
          cases hfa
  refine ⟨h.nodup, fun q hq c hm => ?_, fun q hq q' hq' c hm hm' => ?_, fun a ha => ?_,
    fun a q ha hf => ?_, fun a ha => ?_, fun a ha => ?_, h.init.1,
    (ended_tcb v).1.trans h.init.2.1, ?_, ?_⟩
  · obtain ⟨-, hm⟩ := hmakes q c hm
    obtain ⟨hc, hcs, hct, hcf⟩ := h.unborn q hq c hm
    have hcp : c ≠ p := fun he => hc (he ▸ hp)
    refine ⟨hc, (hsite c hcp).trans hcs, (ended_tcb v).2.1.trans hct, ?_⟩
    rwa [leave, if_neg fun hno => hc hno.1]
  · exact h.sole q hq q' hq' c (hmakes q c hm).2 (hmakes q' c hm').2
  · have hm := hcalm.member ha
    rw [(ended_tcb v).2.2.2]
    have hpid : ∀ q, ((s.ended p v).tcb q).pid = (s.tcb q).pid := fun q => (ended_tcb v).1
    simp only [hpid, leave, h.child_iff hpids hp]
    split
    · rw [Option.map_some, h.init.2.1]
    · exact h.kin a hm
  · rcases hleave a q hf (hcalm.member ha) with rfl | ⟨hf, hqp⟩
    · refine ⟨h.init.1, ?_⟩
      rw [hsite _ hne]
      exact h.init.2.2.2
    · rw [hsite q hqp]
      exact h.alive a q (hcalm.member ha) hf
  · unfold leave
    split
    · exact .inr rfl
    · exact h.adopted a (hcalm.member ha)
  · rw [(ended_tcb v).2.1, ended_site]
    split
    · rename_i hap
      rw [hap, hst]
      exact iff_of_false nofun nofun
    · exact h.hanging a ha
  · rw [leave, if_neg, h.init.2.2.1]
    rintro ⟨-, hf⟩
    rw [h.init.2.2.1] at hf
    cases hf
  · rw [hsite _ hne]
    exact h.init.2.2.2

/-- The parent is awake. -/
def State.woken (s : State) (q : Addr) : State :=
  if (s.tcb q).status = .waiting then s.turn q .ready (s.tcb q).nameLength (s.site q) else s

theorem hung_eq : s.hung p q =
    (s.woken q).turn p .hanging ((s.woken q).tcb p).nameLength .exited := by
  rw [State.hung, State.woken]
  split
  · rw [setStatus_eq_turn q, setStatus_eq_turn p, setSite_eq_turn]
    simp [State.turn]
  · rw [setStatus_eq_turn p, setSite_eq_turn]
    simp [State.turn]

theorem woken_site : (s.woken q).site a = s.site a := by
  unfold State.woken
  split
  · rw [turn_site]
    split
    · rename_i h
      rw [h]
    · rfl
  · rfl

theorem Kin.woken (h : Kin s m f) (hq : q ∈ s.all) : Kin (s.woken q) m f := by
  unfold State.woken
  split
  · rename_i hw
    refine h.turn hq (.inl rfl) (iff_of_false nofun fun he => ?_) id
    rw [(h.hanging q hq).mpr he] at hw
    cases hw
  · exact h

theorem woken_all : (s.woken q).all = s.all := by
  unfold State.woken
  split <;> rfl

theorem Kin.hung (h : Kin s m f) (hp : p ∈ s.all) (hq : q ∈ s.all) (hs : s.site p = .exiting) :
    Kin (s.hung p q) m f := by
  rw [hung_eq]
  refine (h.woken hq).turn (by rwa [woken_all]) (.inr ⟨rfl, nofun⟩) (iff_of_true rfl rfl) fun _ => ?_
  rw [woken_site, hs]
  exact .inl rfl

theorem reaped_status (hq : q ≠ c) : ((s.reaped p c).tcb q).status = (s.tcb q).status := by
  simp [State.reaped, State.setStatus, State.setTcb, State.setSite, hq]

theorem reaped_parentPid : ((s.reaped p c).tcb q).parentPid = (s.tcb q).parentPid := by
  by_cases hq : q = c
  · subst hq
    simp [State.reaped, State.setStatus, State.setTcb, State.setSite]
  · simp [State.reaped, State.setStatus, State.setTcb, State.setSite, hq]

theorem Kin.reaped (h : Kin s m f) (hp : p ∈ s.all) (hc : c ∈ s.all) (hst : (s.tcb p).status = .ready)
    (hhang : (s.tcb c).status = .hanging) : Kin (s.reaped p c) m f := by
  have hcs := (h.hanging c hc).mp hhang
  have hnot : ∀ q, ¬ (s.site q).Ending → q ≠ c := by
    rintro q hq rfl
    exact hq (.inr hcs)
  have hmem : ∀ a, Member (s.reaped p c) a → Member s a := fun a ha =>
    (reaped_member h.nodup (h.out hc) ha).1
  have hkeep : ∀ q, q ∈ s.all → q ≠ c → q ∈ (s.reaped p c).all := fun q hq hqc =>
    (h.nodup.mem_erase_iff).mpr ⟨hqc, hq⟩
  have hsub : ∀ q, q ∈ (s.reaped p c).all → q ∈ s.all := fun q => List.mem_of_mem_erase
  have hsite : ∀ q, ¬ (s.site q).Ending → ¬ ((s.reaped p c).site q).Ending := by
    intro q hq
    by_cases hqp : q = p
    · subst hqp
      simp [State.reaped, State.setSite, Site.Ending]
    · rwa [reaped_site hqp]
  have hmakes : ∀ q d, ((s.reaped p c).site q).makes = some d → q ≠ p ∧ (s.site q).makes = some d := by
    intro q d hm
    by_cases hqp : q = p
    · subst hqp
      simp [State.reaped, State.setSite, Site.makes] at hm
    · exact ⟨hqp, reaped_site hqp ▸ hm⟩
  refine ⟨h.nodup.erase c, fun q hq d hd => ?_, fun q hq q' hq' d hd hd' => ?_, fun a ha => ?_,
    fun a q ha hf => ?_, fun a ha => h.adopted a (hmem a ha), fun a ha => ?_,
    hkeep _ h.init.1 (hnot _ h.init.2.2.2), (reaped_pid _).trans h.init.2.1, h.init.2.2.1,
    hsite _ h.init.2.2.2⟩
  · obtain ⟨-, hd⟩ := hmakes q d hd
    obtain ⟨hda, hds, hdt, hdf⟩ := h.unborn q (hsub q hq) d hd
    have hdp : d ≠ p := fun he => hda (he ▸ hp)
    have hdc : d ≠ c := fun he => hda (he ▸ hc)
    exact ⟨fun hm => hda (hsub d hm), (reaped_site hdp).trans hds, (reaped_status hdc).trans hdt, hdf⟩
  · exact h.sole q (hsub q hq) q' (hsub q' hq') d (hmakes q d hd).2 (hmakes q' d hd').2
  · rw [reaped_parentPid, h.kin a (hmem a ha)]
    simp only [reaped_pid]
  · obtain ⟨hq, hne⟩ := h.alive a q (hmem a ha) hf
    exact ⟨hkeep q hq (hnot q hne), hsite q hne⟩
  · obtain ⟨hac, haa⟩ := (h.nodup.mem_erase_iff).mp ha
    rw [reaped_status hac]
    by_cases hap : a = p
    · subst hap
      rw [hst]
      refine iff_of_false (by simp) ?_
      simp [State.reaped, State.setSite]
    · rw [reaped_site hap]
      exact h.hanging a haa

theorem released_eq : s.released p n =
    { s.turn p (s.tcb p).status (s.tcb p).nameLength .user with
      pidBm := s.pidBm.setValue (n - pidStart) false } := by
  rw [State.released, setSite_eq_turn]

/-- The map of the pids does not matter. -/
theorem Kin.setBits (h : Kin s m f) (b : Bitmap) : Kin { s with pidBm := b } m f :=
  ⟨h.nodup, h.unborn, h.sole, h.kin, h.alive, h.adopted, h.hanging, h.init⟩

end Frog.Proc
