import Frog.Thread.Queued

/-!
# Forks among the lists

What `sys_fork` does to the lists of the threads once the child is made.
-/

namespace Frog.Thread

set_option autoImplicit false
open Prog

/-- `sys_fork` behind the locks it takes for memory and for a pid. The links of the child, null until
then, are first written when it enters a list; `list_find_element` never compares the last. -/
def sysFork (c : Tid) : M Unit := do
  let s ← get
  let t ← runningThread
  modify fun s => { s with
    status := Function.update s.status c .ready
    parentPid := Function.update s.parentPid c (some t)
    exitStatus := Function.update s.exitStatus c (s.exitStatus t)
    pc := Function.update s.pc c (.run .user)
    ret := Function.update s.ret c (.size 0) }
  check (c ∉ s.all.dropLast) .panic
  modify fun s => { s with all := s.all ++ [c] }
  let found ← listFindElement (.tag c) .ready
  check (found = false) .panic
  listAddTail (.tag c) .ready
  setRet (.size c)

inductive Action where
  | event (e : Event)
  | fork (c : Tid)

/-- The child's TCB is a new page. -/
def Growing (s : State) (x : Action) (t : State) : Prop :=
  match x with
  | .event e => Step s e t
  | .fork c => s.cur ≠ s.idle ∧ s.pc s.cur = .run .user ∧ c ∉ s.all ∧ sysFork c s = .ok ((), t)

/-- A fork is always allowed. -/
def Action.Allowed (s : State) : Action → Prop
  | .event e => Thread.Allowed s e
  | .fork _ => True

variable {s : State} {L : Head → List Node} {c : Tid}

/-- The state with the child in it, in no list yet. -/
def State.bearing (s : State) (c : Tid) : State :=
  { s with
    all := s.all ++ [c]
    status := Function.update s.status c .ready
    parentPid := Function.update s.parentPid c (some s.cur)
    exitStatus := Function.update s.exitStatus c (s.exitStatus s.cur)
    pc := Function.update s.pc c (.run .user)
    ret := Function.update s.ret c (.size 0) }

def State.forked (s : State) (c : Tid) : State :=
  ((s.bearing c).setLinks (s.links.addTail (.tag c) (.head .ready))).setRet s.cur (.size c)

theorem Lists.loose_of_not_mem (hL : Lists s L) (hc : c ∉ s.all) : Loose L c := by
  intro h hm
  obtain ⟨u, hu, he⟩ := hL.tags h _ hm
  cases he
  exact hc hu

theorem Lists.forked (hL : Lists s L) (hc : c ∉ s.all) :
    Lists (s.forked c) (behind L .ready c) := by
  have hl := hL.loose_of_not_mem hc
  have hne : ∀ u ∈ s.all, u ≠ c := fun u hu he => hc (he ▸ hu)
  have hst : ∀ u, (s.forked c).status u = if u = c then .ready else s.status u :=
    fun u => Function.update_apply ..
  have hpc : ∀ u, (s.forked c).pc u = if u = c then .run .user else s.pc u :=
    fun u => Function.update_apply ..
  have hmem : ∀ u, u ∈ (s.forked c).all ↔ u ∈ s.all ∨ u = c := fun u => by
    simp [State.forked, State.bearing, State.setLinks, State.setRet]
  refine ⟨hL.rings.addTail hl.unlinked, fun h n hn => ?_, fun u => ?_, fun h u hh hu => ?_,
    fun u hu huc => ?_, (hmem _).mpr (.inl hL.cur_mem), (hmem _).mpr (.inl hL.idle_mem), ?_, ?_⟩
  · by_cases hh : h = .ready
    · subst hh
      rw [behind, Function.update_self] at hn
      rcases List.mem_append.mp hn with hn | hn
      · obtain ⟨u, hu, rfl⟩ := hL.tags _ n hn
        exact ⟨u, (hmem u).mpr (.inl hu), rfl⟩
      · exact ⟨c, (hmem c).mpr (.inr rfl), List.mem_singleton.mp hn⟩
    · rw [behind, Function.update_of_ne hh] at hn
      obtain ⟨u, hu, rfl⟩ := hL.tags h n hn
      exact ⟨u, (hmem u).mpr (.inl hu), rfl⟩
  · rw [behind, Function.update_self, hmem, hst, List.mem_append, hL.ready]
    by_cases huc : u = c
    · simp [huc]
    · simp [huc]
  · rw [behind, Function.update_of_ne hh] at hu
    have huc : u ≠ c := fun he => hl h (he ▸ hu)
    rw [hpc, hst, if_neg huc, if_neg huc]
    exact hL.waits h u hh hu
  · rw [hst]
    split
    · exact Status.noConfusion
    · rename_i huc'
      exact hL.others u (((hmem u).mp hu).resolve_right huc') huc
  · rw [hpc, show (s.forked c).idle = s.idle from rfl, if_neg (hne _ hL.idle_mem)]
    exact hL.idle_pc
  · rw [hst, show (s.forked c).idle = s.idle from rfl, if_neg (hne _ hL.idle_mem)]
    exact hL.idle_status

/-- No assertion of `sys_fork` fails. -/
theorem sysFork_eq (hL : Lists s L) (hc : c ∉ s.all) : sysFork c s = .ok ((), s.forked c) := by
  apply run_eq_of_wp
  have hlen : (L .ready).length < (s.bearing c).fuel := by
    refine Nat.lt_of_lt_of_le (hL.length_lt .ready) ?_
    simp [State.fuel, State.bearing]
  have hfind : (s.bearing c).links.findElement (s.bearing c).fuel (.tag c) (.head .ready) =
      some false := by
    refine ((hL.rings.ring .ready).findElement_eq hlen).trans ?_
    rw [decide_eq_false fun hm => hL.loose_of_not_mem hc .ready (List.dropLast_subset _ hm)]
  have hlist : wp (fun _ => False) (listFindElement (.tag c) .ready)
      (fun found t => found = false ∧ t = s.bearing c) (s.bearing c) := by
    simp only [listFindElement, wp_bind, wp_get, hfind, wp_need]
    simp
  simp only [sysFork, wp_bind, wp_get, wp_runningThread, wp_modify, wp_check]
  refine ⟨fun _ => wp_mono hlist ?_, fun hm => hm fun h => hc (List.dropLast_subset _ h)⟩
  rintro found t ⟨rfl, rfl⟩
  simp only [wp_listAddTail, wp_setRet, true_implies, not_true, false_implies, and_true]
  exact ⟨trivial, rfl⟩

theorem Settled.forked (h : Settled s L) (hu : s.pc s.cur = .run .user) (hc : c ∉ s.all) :
    Settled (s.forked c) (behind L .ready c) := by
  obtain ⟨hL, hr, hw⟩ := h
  have hne : s.cur ≠ c := fun he => hc (he ▸ hL.cur_mem)
  refine ⟨hL.forked hc, (Function.update_of_ne hne ..).trans hr, .inr fun h hm => ?_⟩
  have hl : Loose L s.cur := by
    refine hw.resolve_left ?_
    rw [hu]
    rintro (⟨_, _, _, h⟩ | ⟨_, _, _, h⟩) <;> cases h
  by_cases hh : h = .ready
  · subst hh
    rw [behind, Function.update_self] at hm
    rcases List.mem_append.mp hm with hm | hm
    · exact hl _ hm
    · exact hne (Node.tag.inj (List.mem_singleton.mp hm))
  · rw [behind, Function.update_of_ne hh] at hm
    exact hl h hm

theorem Inv.growing {t : State} {x : Action} (hs : Inv s) (hok : x.Allowed s)
    (h : Growing s x t) : Inv t := by
  cases x with
  | event e => exact hs.step hok h
  | fork c =>
    obtain ⟨L, hs⟩ := hs
    obtain ⟨-, hu, hc, hrun⟩ := h
    have heq := (sysFork_eq hs.1 hc).symm.trans hrun
    cases heq
    exact ⟨_, hs.forked hu hc⟩

/-- A fork in the state `s`: it returns, the child is the last ready thread and in no other list,
and the other threads stay where they are. -/
def ForkSettled (s : State) : Prop :=
  ∀ c, s.cur ≠ s.idle → s.pc s.cur = .run .user → c ∉ s.all →
    ∃ L t, RingLists s.links Node.head L ∧ Growing s (.fork c) t ∧ t.all = s.all ++ [c] ∧
      RingLists t.links Node.head (behind L .ready c) ∧
      (∀ h, .tag c ∈ behind L .ready c h ↔ h = .ready) ∧ Queued t

theorem Inv.forkSettled (h : Inv s) : ForkSettled s := by
  intro c hi hu hc
  obtain ⟨L, hs⟩ := h
  have hl := hs.1.loose_of_not_mem hc
  have hf := hs.forked hu hc
  refine ⟨L, s.forked c, hs.1.rings, ⟨hi, hu, hc, sysFork_eq hs.1 hc⟩, rfl, hf.1.rings, fun h => ?_,
    hf.queued⟩
  by_cases hh : h = .ready
  · subst hh
    simp [behind]
  · rw [behind, Function.update_of_ne hh]
    exact iff_of_false (hl h) hh

/-- Every fork finds the lists in order. -/
theorem forks_settle {main idle : Tid} {others : List Tid} (hd : (main :: others).Nodup)
    (hi : idle ∈ others) (parentPid : Tid → Option Tid) (queue : Nat → CircleQueue)
    {xs : List Action} {t : State}
    (h : Run (Guarded Action.Allowed Growing) (State.start main idle others parentPid queue) xs t) :
    Queued t ∧ ForkSettled t := by
  have hinv := h.guarded_invariant (I := Inv) (fun _ _ _ hs hok hst => hs.growing hok hst)
    (inv_start hd hi parentPid queue)
  obtain ⟨L, hL⟩ := id hinv
  exact ⟨hL.queued, hinv.forkSettled⟩

end Frog.Thread
