import Frog.Proc.Process

/-!
# Who has which pid

What each call does to a state, and the pids in use: those of the TCBs in the list, of the children
that are not linked yet, and those that a reap is about to give back.
-/

namespace Frog.Proc

set_option autoImplicit false
open Prog Thread

variable {s t : State} {p q a c : Addr} {n m : Pid}

/-- The child that a process is making. -/
def Site.makes : Site → Option Addr
  | .forking c | .starting c => some c
  | _ => none

/-- The TCBs with a pid. -/
def Member (s : State) (a : Addr) : Prop := a ∈ s.all ∨ ∃ p ∈ s.all, (s.site p).makes = some a

inductive Holder where
  | tcb (a : Addr)
  | reaper (p : Addr)

def Holds (s : State) : Holder → Pid → Prop
  | .tcb a, n => Member s a ∧ (s.tcb a).pid = n
  | .reaper p, n => p ∈ s.all ∧ s.site p = .reaping n

structure Pids (s : State) : Prop where
  old : ∀ a, Member s a → a < s.next
  inj : ∀ h k n, Holds s h n → Holds s k n → h = k
  marked : ∀ h n, Holds s h n → n = 0 ∨ ∃ i, n = pidStart + i ∧ s.pidBm.getValue i = true

theorem Pids.tcb_inj (h : Pids s) (ha : Member s a) (hc : Member s c)
    (he : (s.tcb a).pid = (s.tcb c).pid) : a = c := by
  have := h.inj (.tcb a) (.tcb c) _ ⟨ha, he⟩ ⟨hc, rfl⟩
  injection this

/-! ## What the calls do -/

/-- A new TCB for `p`, with the pid of the bit `i`. -/
def State.made (s : State) (p : Addr) (r : Tcb) (k : Site) (i : Nat) : State where
  all := s.all
  tcb := Function.update s.tcb s.next r
  site := Function.update (Function.update s.site s.next .user) p k
  pidBm := s.pidBm.setValue i true
  next := s.next + 1

theorem wp_sysFork : wp (fun _ => True) (sysFork p) (fun c t => c = s.next ∧ (s.tcb p).pgdir = true ∧
    ∃ i, s.pidBm.findBlock 1 = some i ∧ t = s.made p { s.tcb p with
      pid := pidStart + i, status := .ready, parentPid := some (s.tcb p).pid } (.forking c) i) s := by
  simp only [sysFork, getKernelPage, tcbAt, allocatePid, setTcb, goto, wp_bind, wp_get, wp_modify,
    wp_pure, wp_check, wp_need, implies_true, and_true]
  exact fun hd i hi => ⟨trivial, hd, i, hi, rfl⟩

theorem wp_threadStart {l : Nat} {d : Bool} : wp (fun _ => True) (threadStart p l d)
    (fun c t => c = s.next ∧ ∃ i, s.pidBm.findBlock 1 = some i ∧
      t = s.made p ⟨pidStart + i, none, 0, .ready, l, d⟩ (.starting c) i) s := by
  simp only [threadStart, getKernelPage, allocatePid, setTcb, goto, wp_bind, wp_get, wp_modify,
    wp_pure, wp_need, implies_true, and_true]
  exact fun i hi => ⟨trivial, i, hi, rfl⟩

/-- The child `c` of `p` comes into the list; its name grows by `l`. -/
def State.linked (s : State) (p c : Addr) (l : Nat) : State :=
  { (s.setTcb c { s.tcb c with nameLength := (s.tcb c).nameLength + l }).setSite p .user with
    all := s.all ++ [c] }

theorem wp_linkChild : wp (fun _ => True) (linkChild p)
    (fun _ t => ∃ c l, (s.site p).makes = some c ∧ t = s.linked p c l) s := by
  cases hs : s.site p with
  | forking c =>
    simp only [linkChild, tcbAt, setTcb, goto, hs, wp_bind, wp_get, wp_modify, wp_pure, wp_check,
      implies_true, and_true]
    exact fun _ _ => ⟨c, 5, rfl, rfl⟩
  | starting c =>
    simp only [linkChild, goto, hs, wp_bind, wp_get, wp_modify, wp_pure, wp_check, implies_true,
      and_true]
    refine fun _ => ⟨c, 0, rfl, ?_⟩
    simp [State.linked, State.setTcb, State.setSite]
  | user | wait | reaping n | exiting | exited =>
    simp [linkChild, hs]

theorem wp_dropChild : wp (fun _ => True) (dropChild p)
    (fun _ t => (∃ c, s.site p = .forking c) ∧ t = s.setSite p .user) s := by
  cases hs : s.site p with
  | forking c =>
    simp only [dropChild, goto, hs, wp_bind, wp_get, wp_modify]
    exact ⟨⟨c, rfl⟩, trivial⟩
  | starting c | user | wait | reaping n | exiting | exited =>
    simp [dropChild, hs]

theorem wp_sysExecv {l : Nat} : wp (fun _ => True) (sysExecv p l)
    (fun _ t => t = s.setTcb p { s.tcb p with nameLength := l }) s := by
  simp only [sysExecv, tcbAt, setTcb, wp_bind, wp_get, wp_modify, wp_pure, wp_check, implies_true,
    and_true]

/-- `p` has left its children to init. -/
def State.ended (s : State) (p : Addr) (v : BitVec 32) : State :=
  ((s.setTcb p { s.tcb p with exitStatus := v }).adopt (s.tcb p).pid).setSite p .exiting

theorem wp_sysExit {v : BitVec 32} : wp (fun _ => True) (sysExit p v)
    (fun _ t => (s.tcb p).parentPid ≠ none ∧ t = s.ended p v) s := by
  simp only [sysExit, tcbAt, setTcb, goto, wp_bind, wp_get, wp_modify, wp_pure, wp_check,
    implies_true, and_true]
  exact fun hp => ⟨hp, rfl⟩

/-- The parent `q` of `p` is awake and `p` is done. -/
def State.hung (s : State) (p q : Addr) : State :=
  ((if (s.tcb q).status = .waiting then s.setStatus q .ready else s).setStatus p .hanging).setSite p
    .exited

theorem wp_sysExitWake : wp (fun _ => True) (sysExitWake p) (fun _ t => ∃ q ∈ s.all,
    (s.tcb p).parentPid = some (s.tcb q).pid ∧ t = s.hung p q) s := by
  simp only [sysExitWake, setStatus, goto, wp_bind, wp_get, wp_need, wp_ite, wp_modify, implies_true,
    and_true]
  intro q hq
  have hmem := List.mem_of_find?_eq_some hq
  have hpid := List.find?_some hq
  simp only [decide_eq_true_eq] at hpid
  refine ⟨fun hw => ⟨q, hmem, hpid.symm, ?_⟩, fun hw => ⟨q, hmem, hpid.symm, ?_⟩⟩
  · rw [State.hung, if_pos hw]
  · rw [State.hung, if_neg hw]

/-- The hanging child `c` is out of the list, and `p` gives back its pid. -/
def State.reaped (s : State) (p c : Addr) : State :=
  { (s.setStatus c .died).setSite p (.reaping (s.tcb c).pid) with all := s.all.erase c }

/-- The children of `p` by their parent's pid. -/
def State.Child (s : State) (p c : Addr) : Prop :=
  c ∈ s.all ∧ (s.tcb c).parentPid = some (s.tcb p).pid

instance : Decidable (s.Child p c) := inferInstanceAs (Decidable (_ ∧ _))

/-- `sys_wait` always goes on. -/
theorem wp_sysWait : wp (fun _ => False) (sysWait p) (fun r t =>
    match r with
    | .child c n v => s.Child p c ∧ (s.tcb c).status = .hanging ∧ n = (s.tcb c).pid ∧
        v = (s.tcb c).exitStatus ∧ t = s.reaped p c
    | .error => (∀ c, ¬ s.Child p c) ∧ t = s.setSite p .user
    | .blocked => (∃ c, s.Child p c) ∧ (∀ c, s.Child p c → (s.tcb c).status ≠ .hanging) ∧
        t = (s.setSite p .wait).setStatus p .waiting) s := by
  simp only [sysWait, wp_bind, wp_get]
  split
  · rename_i c hc
    have hmem := List.mem_of_find?_eq_some hc
    have hsome := List.find?_some hc
    simp only [decide_eq_true_eq] at hsome
    simp only [tcbAt, threadExit, setStatus, goto, wp_bind, wp_get, wp_modify, wp_pure]
    refine ⟨⟨hmem, hsome.1⟩, hsome.2, trivial, trivial, ?_⟩
    simp [State.reaped, State.setStatus, State.setTcb, State.setSite]
  · rename_i hnone
    have hno : ∀ c, s.Child p c → (s.tcb c).status ≠ .hanging := by
      rintro c ⟨hc, hpid⟩ hst
      have := List.find?_eq_none.mp hnone c hc
      simp [hpid, hst] at this
    split
    · rename_i hnone'
      simp only [goto, wp_bind, wp_modify, wp_pure]
      refine ⟨?_, trivial⟩
      rintro c ⟨hc, hpid⟩
      have := List.find?_eq_none.mp hnone' c hc
      simp [hpid] at this
    · rename_i c hc
      have hsome := List.find?_some hc
      simp only [decide_eq_true_eq] at hsome
      simp only [goto, setStatus, wp_bind, wp_modify, wp_pure]
      exact ⟨⟨c, List.mem_of_find?_eq_some hc, hsome⟩, hno, trivial⟩

/-- The pid `n` is free again. -/
def State.released (s : State) (p : Addr) (n : Pid) : State :=
  { s.setSite p .user with pidBm := s.pidBm.setValue (n - pidStart) false }

theorem wp_sysWaitEnd : wp (fun _ => True) (sysWaitEnd p)
    (fun _ t => ∃ n, s.site p = .reaping n ∧ pidStart ≤ n ∧ t = s.released p n) s := by
  cases hs : s.site p with
  | reaping n =>
    simp only [sysWaitEnd, releasePid, goto, hs, wp_bind, wp_get, wp_modify, wp_check, implies_true,
      and_true]
    exact fun hn _ => ⟨n, rfl, hn, rfl⟩
  | forking c | starting c | user | wait | exiting | exited =>
    simp [sysWaitEnd, hs]

/-! ## The pids in use -/

/-- At a site where no pid is kept for another process. -/
def Site.Idle (k : Site) : Prop := k.makes = none ∧ ∀ n, k ≠ .reaping n

/-- A change that leaves list and pids as they are. -/
structure Calm (s t : State) : Prop where
  all : t.all = s.all
  bits : t.pidBm = s.pidBm
  next : t.next = s.next
  pid : ∀ a, (t.tcb a).pid = (s.tcb a).pid
  site : ∀ q, t.site q = s.site q ∨ (t.site q).Idle

theorem Calm.member (h : Calm s t) (ha : Member t a) : Member s a := by
  unfold Member at *
  rw [h.all] at ha
  refine ha.imp_right ?_
  rintro ⟨q, hq, hm⟩
  rcases h.site q with he | hi
  · exact ⟨q, hq, he ▸ hm⟩
  · rw [hi.1] at hm
    cases hm

theorem Calm.holds (h : Calm s t) {x : Holder} (hx : Holds t x n) : Holds s x n := by
  cases x with
  | tcb a => exact ⟨h.member hx.1, (h.pid a).symm.trans hx.2⟩
  | reaper q =>
    refine ⟨h.all ▸ hx.1, ?_⟩
    rcases h.site q with he | hi
    · exact he.symm.trans hx.2
    · exact absurd hx.2 (hi.2 n)

/-- The holders of `t` have their pids from different holders of `s`. -/
theorem Pids.map (h : Pids s) {f : Holder → Holder} (hnext : t.next = s.next)
    (hbits : t.pidBm = s.pidBm) (hmem : ∀ a, Member t a → Member s a)
    (hf : ∀ x n, Holds t x n → Holds s (f x) n)
    (hinj : ∀ x y n, Holds t x n → Holds t y n → f x = f y → x = y) : Pids t := by
  refine ⟨fun a ha => ?_, fun x y n hx hy => ?_, fun x n hx => ?_⟩
  · rw [hnext]
    exact h.old a (hmem a ha)
  · exact hinj x y n hx hy (h.inj _ _ n (hf x n hx) (hf y n hy))
  · rw [hbits]
    exact h.marked _ n (hf x n hx)

theorem Pids.calm (h : Pids s) (hc : Calm s t) : Pids t :=
  h.map (f := id) hc.next hc.bits (fun _ => hc.member) (fun _ _ => hc.holds) fun _ _ _ _ _ he => he

theorem made_site (r : Tcb) (k : Site) (i : Nat) (hq : q ≠ s.next) :
    (s.made p r k i).site q = if q = p then k else s.site q := by
  simp only [State.made, Function.update_apply, if_neg hq]

theorem made_tcb (r : Tcb) (k : Site) (i : Nat) (ha : a ≠ s.next) :
    (s.made p r k i).tcb a = s.tcb a := Function.update_of_ne ha ..

theorem made_tcb_next (r : Tcb) (k : Site) (i : Nat) : (s.made p r k i).tcb s.next = r :=
  Function.update_self ..

theorem Pids.made_member (h : Pids s) {r : Tcb} {k : Site} {i : Nat} (hk : k.makes = some s.next) :
    Member (s.made p r k i) a → a = s.next ∨ Member s a := by
  rintro (ha | ⟨q, hq, hm⟩)
  · exact .inr (.inl ha)
  · have hqn : q ≠ s.next := (h.old q (.inl hq)).ne
    rw [made_site _ _ _ hqn] at hm
    split at hm
    · rw [hk] at hm
      cases hm
      exact .inl rfl
    · exact .inr (.inr ⟨q, hq, hm⟩)

/-- A new TCB has a pid that nobody had. -/
theorem Pids.made (h : Pids s) {r : Tcb} {k : Site} {i : Nat} (hi : s.pidBm.findBlock 1 = some i)
    (hr : r.pid = pidStart + i) (hk : k.makes = some s.next) : Pids (s.made p r k i) := by
  have hclear := (Bitmap.findBlock_one hi).2.1
  have hfresh : ∀ x n, Holds s x n → n ≠ pidStart + i := by
    intro x n hx he
    rcases h.marked x n hx with rfl | ⟨j, rfl, hj⟩
    · exact absurd he (Nat.add_pos_left Nat.one_pos i).ne
    · rw [Nat.add_left_cancel he, hclear] at hj
      cases hj
  have hcases : ∀ x n, Holds (s.made p r k i) x n →
      x = .tcb s.next ∧ n = pidStart + i ∨ Holds s x n := by
    intro x n hx
    cases x with
    | tcb a =>
      obtain ⟨hm, hpid⟩ := hx
      rcases h.made_member hk hm with rfl | ha
      · rw [made_tcb_next, hr] at hpid
        exact .inl ⟨rfl, hpid.symm⟩
      · rw [made_tcb _ _ _ (h.old a ha).ne] at hpid
        exact .inr ⟨ha, hpid⟩
    | reaper q =>
      obtain ⟨hq, hs⟩ := hx
      rw [made_site _ _ _ (h.old q (.inl hq)).ne] at hs
      split at hs
      · rw [hs] at hk
        cases hk
      · exact .inr ⟨hq, hs⟩
  refine ⟨fun a ha => ?_, fun x y n hx hy => ?_, fun x n hx => ?_⟩
  · rcases h.made_member hk ha with rfl | ha
    · exact Nat.lt_succ_self _
    · exact Nat.lt_succ_of_lt (h.old a ha)
  · rcases hcases x n hx with ⟨rfl, hn⟩ | hx <;> rcases hcases y n hy with ⟨rfl, hn'⟩ | hy
    · rfl
    · exact absurd hn (hfresh y n hy)
    · exact absurd hn' (hfresh x n hx)
    · exact h.inj x y n hx hy
  · rcases hcases x n hx with ⟨-, hn⟩ | hx
    · exact .inr ⟨i, hn, Bitmap.getValue_setValue_self ..⟩
    · refine (h.marked x n hx).imp_right ?_
      rintro ⟨j, rfl, hj⟩
      have hji : j ≠ i := fun he => hfresh x _ hx (he ▸ rfl)
      exact ⟨j, rfl, (Bitmap.getValue_setValue_ne hji).trans hj⟩

theorem linked_member {l : Nat} (hp : p ∈ s.all) (hc : (s.site p).makes = some c)
    (hu : s.site c = .user) (ha : Member (s.linked p c l) a) : Member s a := by
  rcases ha with ha | ⟨q, hq, hm⟩
  · rcases List.mem_append.mp ha with ha | ha
    · exact .inl ha
    · rw [List.mem_singleton.mp ha]
      exact .inr ⟨p, hp, hc⟩
  · have hqp : q ≠ p := by
      rintro rfl
      simp [State.linked, State.setSite, Site.makes] at hm
    have hm' : (s.site q).makes = some a := by
      simpa [State.linked, State.setSite, State.setTcb, hqp] using hm
    rcases List.mem_append.mp hq with hq | hq
    · exact .inr ⟨q, hq, hm'⟩
    · rw [List.mem_singleton.mp hq, hu] at hm'
      cases hm'

theorem linked_pid (l : Nat) (a : Addr) : ((s.linked p c l).tcb a).pid = (s.tcb a).pid := by
  by_cases hac : a = c
  · subst hac
    simp [State.linked, State.setSite, State.setTcb]
  · simp [State.linked, State.setSite, State.setTcb, hac]

theorem Pids.linked (h : Pids s) {l : Nat} (hp : p ∈ s.all) (hc : (s.site p).makes = some c)
    (hu : s.site c = .user) : Pids (s.linked p c l) := by
  refine h.map (f := id) rfl rfl (fun a => linked_member hp hc hu) (fun x n hx => ?_)
    fun _ _ _ _ _ he => he
  cases x with
  | tcb a => exact ⟨linked_member hp hc hu hx.1, (linked_pid l a).symm.trans hx.2⟩
  | reaper q =>
    obtain ⟨hq, hs⟩ := hx
    have hqp : q ≠ p := by
      rintro rfl
      simp [State.linked, State.setSite] at hs
    have hs' : s.site q = .reaping n := by
      simpa [State.linked, State.setSite, State.setTcb, hqp] using hs
    rcases List.mem_append.mp hq with hq | hq
    · exact ⟨hq, hs'⟩
    · rw [List.mem_singleton.mp hq, hu] at hs'
      cases hs'

theorem reaped_site (hq : q ≠ p) : (s.reaped p c).site q = s.site q := Function.update_of_ne hq ..

theorem reaped_pid (a : Addr) : ((s.reaped p c).tcb a).pid = (s.tcb a).pid := by
  by_cases hac : a = c
  · subst hac
    simp [State.reaped, State.setStatus, State.setTcb, State.setSite]
  · simp [State.reaped, State.setStatus, State.setTcb, State.setSite, hac]

theorem reaped_member (hn : s.all.Nodup) (hout : ∀ q ∈ s.all, (s.site q).makes ≠ some c)
    (ha : Member (s.reaped p c) a) : Member s a ∧ a ≠ c := by
  rcases ha with ha | ⟨q, hq, hm⟩
  · exact ⟨.inl (List.mem_of_mem_erase ha), ((hn.mem_erase_iff).mp ha).1⟩
  · have hq' := List.mem_of_mem_erase hq
    have hqp : q ≠ p := by
      rintro rfl
      simp [State.reaped, State.setSite, Site.makes] at hm
    rw [reaped_site hqp] at hm
    exact ⟨.inr ⟨q, hq', hm⟩, fun he => hout q hq' (he ▸ hm)⟩

/-- The reaper holds the pid of the child. -/
theorem Pids.reaped (h : Pids s) (hn : s.all.Nodup) (hc : c ∈ s.all)
    (hout : ∀ q ∈ s.all, (s.site q).makes ≠ some c) : Pids (s.reaped p c) := by
  classical
  have hf : ∀ x n, Holds (s.reaped p c) x n →
      x = .reaper p ∧ (s.tcb c).pid = n ∨ x ≠ .reaper p ∧ x ≠ .tcb c ∧ Holds s x n := by
    intro x n hx
    cases x with
    | tcb a =>
      obtain ⟨hm, hne⟩ := reaped_member hn hout hx.1
      exact .inr ⟨nofun, fun he => hne (Holder.tcb.inj he), hm, (reaped_pid a).symm.trans hx.2⟩
    | reaper q =>
      by_cases hqp : q = p
      · subst hqp
        refine .inl ⟨rfl, ?_⟩
        simpa [State.reaped, State.setSite] using hx.2
      · refine .inr ⟨fun he => hqp (Holder.reaper.inj he), nofun, List.mem_of_mem_erase hx.1, ?_⟩
        exact (reaped_site hqp).symm.trans hx.2
  refine h.map (f := fun x => if x = .reaper p then .tcb c else x) rfl rfl
    (fun a ha => (reaped_member hn hout ha).1) (fun x n hx => ?_) fun x y n hx hy he => ?_
  · rcases hf x n hx with ⟨rfl, hpid⟩ | ⟨hne, -, hx⟩
    · rw [if_pos rfl]
      exact ⟨.inl hc, hpid⟩
    · rwa [if_neg hne]
  · rcases hf x n hx with ⟨rfl, -⟩ | ⟨hne, hnc, -⟩ <;>
      rcases hf y n hy with ⟨rfl, -⟩ | ⟨hne', hnc', -⟩
    · rfl
    · rw [if_pos rfl, if_neg hne'] at he
      exact absurd he.symm hnc'
    · rw [if_neg hne, if_pos rfl] at he
      exact absurd he hnc
    · rwa [if_neg hne, if_neg hne'] at he

theorem Pids.released (h : Pids s) (hp : p ∈ s.all) (hs : s.site p = .reaping n)
    (hn : pidStart ≤ n) : Pids (s.released p n) := by
  have hcalm : Calm s (s.setSite p .user) := by
    refine ⟨rfl, rfl, rfl, fun _ => rfl, fun q => ?_⟩
    by_cases hqp : q = p
    · subst hqp
      right
      simp [State.setSite, Site.Idle, Site.makes]
    · exact .inl (Function.update_of_ne hqp ..)
  have hc := h.calm hcalm
  refine ⟨hc.old, hc.inj, fun x m hx => ?_⟩
  refine (hc.marked x m hx).imp_right ?_
  rintro ⟨i, rfl, hi⟩
  refine ⟨i, rfl, ?_⟩
  have hne : i ≠ n - pidStart := by
    rintro rfl
    rw [Nat.add_sub_cancel' hn] at hx
    -- the reaper is no holder any more
    have hxp := h.inj x (.reaper p) n (hcalm.holds hx) ⟨hp, hs⟩
    subst hxp
    have := hx.2
    simp [State.released, State.setSite] at this
  exact (Bitmap.getValue_setValue_ne hne).trans hi

end Frog.Proc
