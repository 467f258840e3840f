import Frog.Thread.Sched

/-!
# The lists of the threads

`Lists s L` says which threads stand in which list and how that fits their states and what they
are doing. The running thread may be on its way into a list. Every operation on the lists is
stated with it once, whatever reasons to stop are allowed.
-/

namespace Frog.Thread

set_option autoImplicit false
open Prog

/-- The list a thread has put itself into. -/
def Site.waitsIn : Site → Option Head
  | .putWait q _ _ | .putBlocked q _ _ => some (.producers q)
  | .getWait q _ _ | .getBlocked q _ _ => some (.consumors q)
  | _ => none

def Pc.waitsIn : Pc → Option Head
  | .down q _ true _ => some (.waiters q)
  | .run k => k.waitsIn
  | _ => none

/-- Linked in a waiting list, but running and with the interrupts on. -/
def Pc.InWindow (p : Pc) : Prop :=
  (∃ q data left, p = .run (.putWait q data left)) ∨ ∃ q count got, p = .run (.getWait q count got)

structure Lists (s : State) (L : Head → List Node) : Prop where
  rings : RingLists s.links Node.head L
  tags : ∀ h, ∀ n ∈ L h, ∃ t ∈ s.all, n = .tag t
  ready : ∀ t, .tag t ∈ L .ready ↔ t ∈ s.all ∧ s.status t = .ready
  waits : ∀ h t, h ≠ .ready → .tag t ∈ L h →
    (s.pc t).waitsIn = some h ∧ (t ≠ s.cur → s.status t = .blocked ∨ s.status t = .waiting)
  others : ∀ t ∈ s.all, t ≠ s.cur → s.status t ≠ .running
  cur_mem : s.cur ∈ s.all
  idle_mem : s.idle ∈ s.all
  idle_pc : s.pc s.idle = .run .user
  idle_status : s.status s.idle = .running ∨ s.status s.idle = .ready ∨ s.status s.idle = .blocked

/-- In none of the lists. -/
def Loose (L : Head → List Node) (t : Tid) : Prop := ∀ h, .tag t ∉ L h

/-- The lists share no node, and their nodes are threads. -/
structure Linked (s : State) (L : Head → List Node) : Prop where
  rings : RingLists s.links Node.head L
  tags : ∀ h, ∀ n ∈ L h, ∃ t ∈ s.all, n = .tag t

/-- Between two steps: the running thread is in no list, except in the window. -/
def Settled (s : State) (L : Head → List Node) : Prop :=
  Lists s L ∧ s.status s.cur = .running ∧
    ((s.pc s.cur).InWindow ∨ Loose L s.cur)

/-- What a switch of threads leaves as it is. -/
structure SameCode (s t : State) : Prop where
  all_eq : t.all = s.all
  idle_eq : t.idle = s.idle
  parent_eq : t.parentPid = s.parentPid
  exit_eq : t.exitStatus = s.exitStatus
  pc_eq : t.pc = s.pc
  ret_eq : t.ret = s.ret
  queue_eq : t.queue = s.queue

theorem SameCode.refl (s : State) : SameCode s s := ⟨rfl, rfl, rfl, rfl, rfl, rfl, rfl⟩

theorem SameCode.trans {s t u : State} (h : SameCode s t) (h' : SameCode t u) : SameCode s u :=
  ⟨h'.all_eq.trans h.all_eq, h'.idle_eq.trans h.idle_eq, h'.parent_eq.trans h.parent_eq,
    h'.exit_eq.trans h.exit_eq, h'.pc_eq.trans h.pc_eq, h'.ret_eq.trans h.ret_eq,
    h'.queue_eq.trans h.queue_eq⟩

section Lemmas
variable {s : State} {L : Head → List Node} {t : Tid} {h : Head} {E : Stop → Prop}

theorem Loose.unlinked (hl : Loose L t) : Unlinked Node.head L (.tag t) := by
  intro h hm
  rcases List.mem_cons.mp hm with hm | hm
  · cases hm
  · exact hl h hm

theorem Linked.nodup (hL : Linked s L) (h : Head) : (L h).Nodup :=
  (List.nodup_cons.mp (hL.rings.ring h).nodup).2

theorem Linked.length_lt (hL : Linked s L) (h : Head) : (L h).length < s.fuel := by
  have hsub : L h ⊆ s.all.map Node.tag := by
    intro n hn
    obtain ⟨t, ht, rfl⟩ := hL.tags h n hn
    exact List.mem_map_of_mem ht
  have := (List.subperm_of_subset (hL.nodup h) hsub).length_le
  rw [List.length_map] at this
  exact Nat.lt_succ_of_le this

namespace Lists

theorem linked (hL : Lists s L) : Linked s L := ⟨hL.rings, hL.tags⟩

theorem length_lt (hL : Lists s L) (h : Head) : (L h).length < s.fuel := hL.linked.length_lt h

/-- A thread in no list but the ready list is not ready. -/
theorem loose (hL : Lists s L) (hs : s.status t ≠ .ready)
    (hw : ∀ h, h ≠ .ready → .tag t ∉ L h) : Loose L t := by
  intro h hm
  by_cases hh : h = .ready
  · subst hh
    exact hs ((hL.ready t).mp hm).2
  · exact hw h hh hm

/-- Who stands at a place where nobody waits is in no waiting list. -/
theorem not_waiting (hL : Lists s L) (hp : (s.pc t).waitsIn = none) (h : Head) (hh : h ≠ .ready) :
    .tag t ∉ L h := by
  intro hm
  rw [(hL.waits h t hh hm).1] at hp
  cases hp

end Lists

/-! ## The primitives -/

@[simp] theorem wp_runningThread {Q : Tid → State → Prop} :
    wp E runningThread Q s ↔ Q s.cur s := Iff.rfl

@[simp] theorem wp_setStatus {Q : Unit → State → Prop} {x : Status} :
    wp E (setStatus t x) Q s ↔ Q () (s.setStatus t x) := Iff.rfl

@[simp] theorem wp_goto {Q : Unit → State → Prop} {p : Pc} :
    wp E (goto p) Q s ↔ Q () (s.setPc s.cur p) := Iff.rfl

@[simp] theorem wp_setRet {Q : Unit → State → Prop} {r : Ret} :
    wp E (setRet r) Q s ↔ Q () (s.setRet s.cur r) := Iff.rfl

@[simp] theorem wp_setLock {Q : Unit → State → Prop} {q : Nat} {l : Lock} :
    wp E (setLock q l) Q s ↔ Q () (s.setLock q l) := Iff.rfl

@[simp] theorem wp_lockAt {Q : Lock → State → Prop} {q : Nat} :
    wp E (lockAt q) Q s ↔ Q (s.lock q) s := Iff.rfl

@[simp] theorem wp_listAdd {Q : Unit → State → Prop} {n : Node} :
    wp E (listAdd n h) Q s ↔ Q () (s.setLinks (s.links.add n (.head h))) := Iff.rfl

@[simp] theorem wp_listAddTail {Q : Unit → State → Prop} {n : Node} :
    wp E (listAddTail n h) Q s ↔ Q () (s.setLinks (s.links.addTail n (.head h))) := Iff.rfl

@[simp] theorem wp_listDelInit {Q : Unit → State → Prop} {n : Node} :
    wp E (listDelInit n) Q s ↔ Q () (s.setLinks (s.links.delInit n)) := Iff.rfl

@[simp] theorem wp_listPop {Q : Node → State → Prop} :
    wp E (listPop h) Q s ↔
      Q (s.links.next (.head h)) (s.setLinks (s.links.delInit (s.links.next (.head h)))) := Iff.rfl

@[simp] theorem wp_listIsEmpty {Q : Bool → State → Prop} :
    wp E (listIsEmpty h) Q s ↔ Q (s.links.isEmpty (.head h)) s := Iff.rfl

@[simp] theorem wp_containerOf_tag {Q : Tid → State → Prop} :
    wp E (containerOf (.tag t)) Q s ↔ Q t s := Iff.rfl

theorem wp_listFindElement {Q : Bool → State → Prop} {n : Node} (hL : Lists s L) :
    wp E (listFindElement n h) Q s ↔ Q (decide (n ∈ (L h).dropLast)) s := by
  have he := (hL.rings.ring h).findElement_eq (n := n) (hL.length_lt h)
  simp only [listFindElement, wp_bind, wp_get, he, wp_need]
  simp

/-- A thread that is in no list is not found in one. -/
theorem wp_find_loose {Q : Bool → State → Prop} (hL : Lists s L) (ht : .tag t ∉ L h) :
    wp E (listFindElement (.tag t) h) Q s ↔ Q false s := by
  rw [wp_listFindElement hL, decide_eq_false fun hm => ht (List.dropLast_subset _ hm)]

theorem wp_listLength {Q : Nat → State → Prop} (hL : Lists s L) :
    wp E (listLength h) Q s ↔ Q (L h).length s := by
  have he := (hL.rings.ring h).length_eq (hL.length_lt h)
  simp only [listLength, wp_bind, wp_get, he, wp_need]
  simp

theorem isEmpty_eq (hL : Lists s L) : s.links.isEmpty (.head h) = decide (L h = []) := by
  rw [Bool.eq_iff_iff, (hL.rings.ring h).isEmpty_iff, decide_eq_true_iff]

/-! ## Waking a thread -/

/-- What the assertion of `thread_unblock` asks for. -/
def Sleeping (x : Status) : Prop := x = .hanging ∨ x = .waiting ∨ x = .blocked

theorem Sleeping.ne_ready {x : Status} (h : Sleeping x) : x ≠ .ready := by
  rcases h with rfl | rfl | rfl <;> decide

theorem Sleeping.ne_running {x : Status} (h : Sleeping x) : x ≠ .running := by
  rcases h with rfl | rfl | rfl <;> decide

def State.unblocked (s : State) (t : Tid) : State :=
  (s.setLinks (s.links.add (.tag t) (.head .ready))).setStatus t .ready

/-- A thread in front of the ready list. -/
def enlist (L : Head → List Node) (t : Tid) : Head → List Node :=
  Function.update L .ready (.tag t :: L .ready)

@[simp] theorem enlist_ready : enlist L t .ready = .tag t :: L .ready := Function.update_self ..

theorem enlist_of_ne (hh : h ≠ .ready) : enlist L t h = L h := Function.update_of_ne hh ..

theorem sameCode_unblocked : SameCode s (s.unblocked t) := ⟨rfl, rfl, rfl, rfl, rfl, rfl, rfl⟩

theorem Lists.unblocked (hL : Lists s L) (ht : t ∈ s.all) (hl : Loose L t) :
    Lists (s.unblocked t) (enlist L t) := by
  have hst : ∀ u, (s.unblocked t).status u = if u = t then .ready else s.status u :=
    fun u => Function.update_apply ..
  refine ⟨hL.rings.add hl.unlinked, ?_, ?_, ?_, ?_, hL.cur_mem, hL.idle_mem, hL.idle_pc, ?_⟩
  · intro h n hn
    by_cases hh : h = .ready
    · subst hh
      rw [enlist_ready] at hn
      rcases List.mem_cons.mp hn with rfl | hn
      · exact ⟨t, ht, rfl⟩
      · exact hL.tags _ n hn
    · rw [enlist_of_ne hh] at hn
      exact hL.tags h n hn
  · intro u
    change _ ↔ u ∈ s.all ∧ _
    rw [enlist_ready, hst]
    by_cases hu : u = t
    · subst hu
      simpa using ht
    · simpa [hu] using hL.ready u
  · intro h u hh hu
    rw [enlist_of_ne hh] at hu
    have hut : u ≠ t := fun he => hl h (he ▸ hu)
    rw [hst, if_neg hut]
    exact hL.waits h u hh hu
  · intro u hu huc
    rw [hst]
    split
    · exact Status.noConfusion
    · exact hL.others u hu huc
  · rw [hst]
    by_cases hi : s.idle = t
    · exact .inr (.inl (if_pos hi))
    · rw [show (s.unblocked t).idle = s.idle from rfl, if_neg hi]
      exact hL.idle_status

/-- `thread_unblock` of a thread in no list. -/
theorem wp_threadUnblock {Q : Unit → State → Prop} (hL : Lists s L) (ht : t ∈ s.all)
    (hl : Sleeping (s.status t) → Loose L t) (he : ¬ Sleeping (s.status t) → E .panic)
    (hQ : Sleeping (s.status t) → Lists (s.unblocked t) (enlist L t) → Q () (s.unblocked t)) :
    wp E (threadUnblock t) Q s := by
  unfold threadUnblock
  simp only [wp_bind, wp_get, wp_check]
  refine ⟨fun hs => ?_, he⟩
  rw [wp_find_loose hL (hl hs _)]
  simp only [wp_listAdd, wp_setStatus, true_implies, not_true, false_implies, and_true]
  exact hQ hs (hL.unblocked ht (hl hs))

/-! ## The next thread -/

/-- The running thread takes its place among the others or has gone to sleep. -/
def Parked (s : State) (L : Head → List Node) : Prop :=
  Lists s L ∧ s.status s.cur ≠ .running ∧
    ∀ h, h ≠ .ready → .tag s.cur ∈ L h → s.status s.cur = .blocked ∨ s.status s.cur = .waiting

/-- A switch from `s`: the waiting lists stay, and so does who waits there. -/
def Switched (s : State) (L : Head → List Node) (t : State) : Prop :=
  SameCode s t ∧ (∀ h u, h ≠ .ready → .tag u ∈ L h → t.status u = s.status u) ∧
    ∃ L', Lists t L' ∧ t.status t.cur = .running ∧ Loose L' t.cur ∧ ∀ h, h ≠ .ready → L' h = L h

theorem Switched.settled {t : State} (h : Switched s L t) : ∃ L', Settled t L' := by
  obtain ⟨-, -, L', hL, hr, hl, -⟩ := h
  exact ⟨L', hL, hr, .inr hl⟩

/-- The state once the thread `x` has the processor and the links are `l`. -/
def State.switched (s : State) (l : Links Node) (x : Tid) : State :=
  { (s.setLinks l).setStatus x .running with cur := x }

theorem Parked.switched {x : Tid} {xs : List Node} {l : Links Node} (hp : Parked s L)
    (hx : .tag x ∈ L .ready) (hxs : ∀ u, .tag u ∈ xs ↔ .tag u ∈ L .ready ∧ u ≠ x)
    (htags : ∀ n ∈ xs, n ∈ L .ready)
    (hl : RingLists l Node.head (Function.update L .ready xs)) : Switched s L (s.switched l x) := by
  obtain ⟨hL, hcur, hw⟩ := hp
  obtain ⟨hxm, hxr⟩ := (hL.ready x).mp hx
  have hst : ∀ u, (s.switched l x).status u = if u = x then .running else s.status u :=
    fun u => Function.update_apply ..
  refine ⟨⟨rfl, rfl, rfl, rfl, rfl, rfl, rfl⟩, ?_, Function.update L .ready xs, ?_, ?_, ?_, ?_⟩
  · intro h u hh hu
    have hux : u ≠ x := fun he => hh (hL.rings.mem_unique hu (he ▸ hx))
    rw [hst, if_neg hux]
  · refine ⟨hl, ?_, ?_, ?_, ?_, hxm, hL.idle_mem, hL.idle_pc, ?_⟩
    · intro h n hn
      by_cases hh : h = .ready
      · subst hh
        rw [Function.update_self] at hn
        exact hL.tags _ n (htags n hn)
      · rw [Function.update_of_ne hh] at hn
        exact hL.tags h n hn
    · intro u
      rw [Function.update_self, hxs, hL.ready, hst]
      by_cases hu : u = x
      · simp [hu]
      · simp [hu, State.switched, State.setStatus, State.setLinks]
    · intro h u hh hu
      rw [Function.update_of_ne hh] at hu
      obtain ⟨h1, h2⟩ := hL.waits h u hh hu
      have hux : u ≠ x := fun he => hh (hL.rings.mem_unique hu (he ▸ hx))
      refine ⟨h1, fun _ => ?_⟩
      rw [hst, if_neg hux]
      by_cases huc : u = s.cur
      · exact huc ▸ hw h hh (huc ▸ hu)
      · exact h2 huc
    · intro u hu hux
      change u ≠ x at hux
      rw [hst, if_neg hux]
      by_cases huc : u = s.cur
      · exact huc ▸ hcur
      · exact hL.others u hu huc
    · rw [hst]
      by_cases hi : s.idle = x
      · exact .inl (if_pos hi)
      · rw [show (s.switched l x).idle = s.idle from rfl, if_neg hi]
        exact hL.idle_status
  · exact (hst x).trans (if_pos rfl)
  · intro h hm
    change Node.tag x ∈ _ at hm
    by_cases hh : h = .ready
    · subst hh
      rw [Function.update_self, hxs] at hm
      exact hm.2 rfl
    · rw [Function.update_of_ne hh] at hm
      exact hh (hL.rings.mem_unique hm hx)
  · exact fun h hh => Function.update_of_ne hh ..

/-- The pop of a ready list that is not empty. -/
theorem Parked.pop (hp : Parked s L) (hne : L .ready ≠ []) :
    ∃ x, s.links.next (.head .ready) = .tag x ∧
      Switched s L (s.switched (s.links.delInit (.tag x)) x) := by
  obtain ⟨n, xs, hxs⟩ := List.exists_cons_of_ne_nil hne
  obtain ⟨x, -, rfl⟩ := hp.1.tags .ready n (by simp [hxs])
  obtain ⟨hnext, hr⟩ := hp.1.rings.pop hxs
  have hnd := (List.nodup_cons.mp (hp.1.rings.ring .ready).nodup).2
  rw [hxs, List.nodup_cons] at hnd
  refine ⟨x, hnext, @Parked.switched _ _ _ xs _ hp (by simp [hxs]) ?_ ?_ hr⟩
  · intro u
    rw [hxs, List.mem_cons]
    constructor
    · exact fun hu => ⟨.inr hu, fun he => hnd.1 (he ▸ hu)⟩
    · rintro ⟨hu | hu, hne⟩
      · cases hu
        exact absurd rfl hne
      · exact hu
  · exact fun m hm => by simp [hxs, hm]

theorem Parked.idle (hp : Parked s L) (he : L .ready = []) :
    s.status s.idle = .blocked ∧ Loose L s.idle := by
  obtain ⟨hL, hcur, -⟩ := hp
  have hnr : s.status s.idle ≠ .ready := by
    intro hr
    have := (hL.ready s.idle).mpr ⟨hL.idle_mem, hr⟩
    simp [he] at this
  have hrun : s.status s.idle ≠ .running := by
    by_cases hc : s.idle = s.cur
    · rwa [hc]
    · exact hL.others _ hL.idle_mem hc
  refine ⟨?_, hL.loose hnr (hL.not_waiting ?_)⟩
  · rcases hL.idle_status with h | h | h
    · exact absurd h hrun
    · exact absurd h hnr
    · exact h
  · rw [hL.idle_pc]
    rfl

theorem wp_dispatch_tag {Q : Unit → State → Prop} {x : Tid}
    (hx : s.links.next (.head .ready) = .tag x) :
    wp E dispatch Q s ↔ Q () (s.switched (s.links.delInit (.tag x)) x) := by
  have he : s.links.isEmpty (.head .ready) = false := by
    rw [Links.isEmpty, hx]
    rfl
  unfold dispatch
  simp only [wp_bind, wp_get, wp_listIsEmpty, he, Bool.false_eq_true, if_false, wp_listPop, hx,
    wp_containerOf_tag, wp_setStatus, wp_modify]
  rfl

theorem wp_dispatch {Q : Unit → State → Prop} (hp : Parked s L)
    (hQ : ∀ t, Switched s L t → Q () t) : wp E dispatch Q s := by
  by_cases he : L .ready = []
  · -- nobody is ready: the idle thread is woken
    obtain ⟨hb, hl⟩ := hp.idle he
    unfold dispatch
    simp only [wp_bind, wp_get, wp_listIsEmpty, isEmpty_eq hp.1, he, decide_true, if_true]
    refine wp_threadUnblock hp.1 hp.1.idle_mem (fun _ => hl) (fun hs => (hs (.inr (.inr hb))).elim)
      fun hs hL' => ?_
    have hp' : Parked (s.unblocked s.idle) (enlist L s.idle) := by
      have hst : ∀ u, (s.unblocked s.idle).status u = if u = s.idle then .ready else s.status u :=
        fun u => Function.update_apply ..
      refine ⟨hL', ?_, ?_⟩
      · rw [hst]
        split
        · exact Status.noConfusion
        · exact hp.2.1
      · intro h hh hm
        rw [enlist_of_ne hh] at hm
        have hne : s.cur ≠ s.idle := fun he => hl h (he ▸ hm)
        rw [hst, show (s.unblocked s.idle).cur = s.cur from rfl, if_neg hne]
        exact hp.2.2 h hh hm
    obtain ⟨x, hx, hsw, hkeep, L', h1, h2, h3, h4⟩ := hp'.pop (by simp)
    simp only [wp_listPop, hx, wp_containerOf_tag, wp_setStatus, wp_modify]
    refine hQ _ ⟨sameCode_unblocked.trans hsw, fun h u hh hu => ?_, L', h1, h2, h3, fun h hh => ?_⟩
    · have hui : u ≠ s.idle := fun he => hl h (he ▸ hu)
      exact (hkeep h u hh (by rwa [enlist_of_ne hh])).trans (Function.update_of_ne hui ..)
    · rw [h4 h hh, enlist_of_ne hh]
  · obtain ⟨x, hx, hsw⟩ := hp.pop he
    exact (wp_dispatch_tag hx).mpr (hQ _ hsw)

/-- The running thread behind the ready list. -/
def requeue (L : Head → List Node) (t : Tid) : Head → List Node :=
  Function.update L .ready (L .ready ++ [.tag t])

def State.requeued (s : State) : State :=
  (s.setLinks (s.links.addTail (.tag s.cur) (.head .ready))).setStatus s.cur .ready

theorem Lists.requeued (hL : Lists s L) (hl : Loose L s.cur) :
    Parked s.requeued (requeue L s.cur) := by
  have hst : ∀ u, s.requeued.status u = if u = s.cur then .ready else s.status u :=
    fun u => Function.update_apply ..
  have hcur : s.requeued.status s.cur = .ready := (hst _).trans (if_pos rfl)
  refine ⟨⟨hL.rings.addTail hl.unlinked, ?_, ?_, ?_, ?_, hL.cur_mem, hL.idle_mem, hL.idle_pc, ?_⟩,
    ?_, ?_⟩
  · intro h n hn
    by_cases hh : h = .ready
    · subst hh
      rw [requeue, Function.update_self] at hn
      rcases List.mem_append.mp hn with hn | hn
      · exact hL.tags _ n hn
      · exact ⟨s.cur, hL.cur_mem, List.mem_singleton.mp hn⟩
    · rw [requeue, Function.update_of_ne hh] at hn
      exact hL.tags h n hn
  · intro u
    change _ ↔ u ∈ s.all ∧ _
    rw [requeue, Function.update_self, hst]
    by_cases hu : u = s.cur
    · subst hu
      simpa using hL.cur_mem
    · simpa [hu] using hL.ready u
  · intro h u hh hu
    rw [requeue, Function.update_of_ne hh] at hu
    have hne : u ≠ s.cur := fun he => hl h (he ▸ hu)
    rw [hst, if_neg hne]
    exact hL.waits h u hh hu
  · intro u hu huc
    change u ≠ s.cur at huc
    rw [hst, if_neg huc]
    exact hL.others u hu huc
  · rw [hst]
    by_cases hi : s.idle = s.cur
    · exact .inr (.inl (if_pos hi))
    · rw [show s.requeued.idle = s.idle from rfl, if_neg hi]
      exact hL.idle_status
  · rw [show s.requeued.cur = s.cur from rfl, hcur]
    exact Status.noConfusion
  · intro h hh hm
    rw [requeue, Function.update_of_ne hh] at hm
    exact absurd hm (hl h)

theorem Switched.of_requeued {t : State} (hl : Loose L s.cur)
    (h : Switched s.requeued (requeue L s.cur) t) : Switched s L t := by
  obtain ⟨hc, hkeep, L', h1, h2, h3, h4⟩ := h
  refine ⟨⟨hc.1, hc.2, hc.3, hc.4, hc.5, hc.6, hc.7⟩, fun h u hh hu => ?_, L', h1, h2, h3,
    fun h hh => ?_⟩
  · have hne : u ≠ s.cur := fun he => hl h (he ▸ hu)
    refine (hkeep h u hh ?_).trans (Function.update_of_ne hne ..)
    rwa [requeue, Function.update_of_ne hh]
  · rw [h4 h hh, requeue, Function.update_of_ne hh]

/-- `schedule` for a thread that has gone to sleep. -/
theorem wp_schedule_asleep {Q : Unit → State → Prop} (hp : Parked s L)
    (hs : s.status s.cur ≠ .ready) (hQ : ∀ t, Switched s L t → Q () t) : wp E schedule Q s := by
  unfold schedule
  simp only [wp_bind, wp_get]
  rw [if_neg hp.2.1, if_neg hs]
  exact wp_dispatch hp hQ

/-- `schedule` for a thread that runs and is in no list. -/
theorem wp_schedule_running {Q : Unit → State → Prop} (hL : Lists s L)
    (hs : s.status s.cur = .running) (hl : Loose L s.cur) (hQ : ∀ t, Switched s L t → Q () t) :
    wp E schedule Q s := by
  unfold schedule
  simp only [wp_bind, wp_get]
  rw [if_pos hs]
  simp only [wp_bind]
  rw [wp_find_loose hL (hl _)]
  simp only [wp_check, wp_listAddTail, wp_setStatus, true_implies, not_true, false_implies,
    and_true]
  exact wp_dispatch (hL.requeued hl) fun t ht => hQ t (ht.of_requeued hl)

/-- `thread_block`, for a thread that is in a waiting list only if it can be found there. -/
theorem wp_threadBlock {Q : Unit → State → Prop} {x : Status} (hL : Lists s L)
    (hl : .tag s.cur ∉ L .ready) (he : ¬ Sleeping x → E .panic)
    (hw : ∀ h, h ≠ .ready → .tag s.cur ∈ L h → x = .blocked ∨ x = .waiting)
    (hi : s.cur = s.idle → x = .blocked)
    (hQ : Sleeping x → ∀ t, Switched (s.setStatus s.cur x) L t → Q () t) :
    wp E (threadBlock x) Q s := by
  unfold threadBlock
  simp only [wp_bind, wp_check, wp_runningThread, wp_setStatus]
  refine ⟨fun hx => ?_, he⟩
  have hst : ∀ u, (s.setStatus s.cur x).status u = if u = s.cur then x else s.status u :=
    fun u => Function.update_apply ..
  have hcur : (s.setStatus s.cur x).status (s.setStatus s.cur x).cur = x :=
    (hst s.cur).trans (if_pos rfl)
  refine wp_schedule_asleep (L := L) ⟨⟨hL.rings, hL.tags, ?_, ?_, ?_, hL.cur_mem, hL.idle_mem,
    hL.idle_pc, ?_⟩, ?_, ?_⟩ ?_ (hQ hx)
  · intro u
    change _ ↔ u ∈ s.all ∧ _
    rw [hst]
    by_cases hu : u = s.cur
    · subst hu
      simp [hl, Sleeping.ne_ready hx]
    · rw [if_neg hu]
      exact hL.ready u
  · intro h u hh hu
    obtain ⟨h1, h2⟩ := hL.waits h u hh hu
    refine ⟨h1, fun hne => ?_⟩
    change u ≠ s.cur at hne
    rw [hst, if_neg hne]
    exact h2 hne
  · intro u hu hne
    change u ≠ s.cur at hne
    rw [hst, if_neg hne]
    exact hL.others u hu hne
  · rw [hst]
    by_cases hc : s.idle = s.cur
    · exact .inr (.inr ((if_pos hc).trans (hi hc.symm)))
    · rw [show (s.setStatus s.cur x).idle = s.idle from rfl, if_neg hc]
      exact hL.idle_status
  · rw [hcur]
    exact Sleeping.ne_running hx
  · intro h hh hm
    rw [hcur]
    exact hw h hh hm
  · rw [hcur]
    exact Sleeping.ne_ready hx

/-- `thread_yield` beside a single ready thread: `schedule` does not find the last node of the ready
list and adds it again, which the pop of the other one repairs. -/
theorem wp_threadYield {Q : Unit → State → Prop} {a : Tid} (hL : Lists s L)
    (hl : Loose L s.cur) (ha : L .ready = [.tag a])
    (hQ : ∀ t, Switched s L t → Q () t) : wp E threadYield Q s := by
  have hp := hL.requeued hl
  have hca : s.cur ≠ a := by
    rintro hc
    refine hl .ready ?_
    rw [ha, hc]
    exact List.mem_singleton_self _
  have hr : requeue L s.cur .ready = [.tag a, .tag s.cur] := by
    rw [requeue, Function.update_self, ha]
    rfl
  have hcur : s.requeued.status s.requeued.cur = .ready := Function.update_self ..
  obtain ⟨hnext, hrings⟩ := hL.rings.addTail_twice ha hl.unlinked
  unfold threadYield
  simp only [wp_bind, wp_runningThread]
  rw [wp_find_loose hL (hl _)]
  simp only [wp_check, wp_listAddTail, wp_setStatus, true_implies, not_true, false_implies, and_true]
  change wp E schedule Q s.requeued
  unfold schedule
  simp only [wp_bind, wp_get]
  rw [if_neg hp.2.1, if_pos hcur]
  simp only [wp_bind]
  have hfind : decide (Node.tag s.requeued.cur ∈ (requeue L s.cur .ready).dropLast) = false := by
    rw [hr]
    exact decide_eq_false fun hm => hca (by simpa [State.requeued, State.setStatus, State.setLinks]
      using hm)
  rw [wp_listFindElement hp.1, hfind, if_pos rfl]
  simp only [wp_bind, wp_listAddTail]
  refine (wp_dispatch_tag hnext).mpr (hQ _ (Switched.of_requeued hl ?_))
  refine @Parked.switched _ _ _ [.tag s.cur] _ hp (by simp [hr]) ?_ (by simp [hr]) ?_
  · intro u
    rw [hr]
    by_cases hu : u = a
    · simp [hu, hca.symm]
    · simp [hu]
  · rw [requeue, Function.update_idem]
    exact hrings

end Lemmas

/-! ## The start -/

theorem ringLists_empty : RingLists (⟨id, id⟩ : Links Node) Node.head fun _ => [] := by
  refine ⟨fun h => ⟨by simp, by simp⟩, fun i j hij n hi hj => hij ?_⟩
  rw [List.mem_singleton] at hi hj
  exact Node.head.inj (hi.symm.trans hj)

theorem ringLists_start {ts : List Tid} (hd : ts.Nodup) :
    RingLists (startLinks ts) Node.head
      (Function.update (fun _ => []) .ready (ts.reverse.map Node.tag)) := by
  induction ts with
  | nil => simpa [startLinks] using ringLists_empty
  | cons t ts ih =>
    obtain ⟨ht, hd'⟩ := List.nodup_cons.mp hd
    have h := (ih hd').addTail (i := .ready) (n := .tag t) ?_
    · simpa [startLinks] using h
    · refine Loose.unlinked fun h hm => ?_
      by_cases hh : h = .ready
      · subst hh
        simp [ht] at hm
      · simp [hh] at hm

theorem lists_start {main idle : Tid} {others : List Tid} (hd : (main :: others).Nodup)
    (hi : idle ∈ others) (parentPid : Tid → Option Tid) (queue : Nat → CircleQueue) :
    ∃ L, Lists (State.start main idle others parentPid queue) L ∧
      (State.start main idle others parentPid queue).status main = .running ∧ Loose L main := by
  obtain ⟨hm, hd'⟩ := List.nodup_cons.mp hd
  have hmem : ∀ h t, .tag t ∈ Function.update (fun _ => []) Head.ready
      (others.reverse.map Node.tag) h ↔ h = .ready ∧ t ∈ others := by
    intro h t
    by_cases hh : h = .ready
    · subst hh
      simp
    · simp [hh]
  have hst : ∀ t, (State.start main idle others parentPid queue).status t =
      if t = main then .running else .ready := fun _ => rfl
  have hne : idle ≠ main := fun he => hm (he ▸ hi)
  refine ⟨_, ⟨ringLists_start hd', ?_, ?_, ?_, ?_, List.mem_cons_self .., List.mem_cons_of_mem _ hi,
    rfl, .inr (.inl (if_neg hne))⟩, if_pos rfl, ?_⟩
  · intro h n hn
    by_cases hh : h = .ready
    · subst hh
      rw [Function.update_self] at hn
      obtain ⟨t, ht, rfl⟩ := List.mem_map.mp hn
      exact ⟨t, List.mem_cons_of_mem _ (List.mem_reverse.mp ht), rfl⟩
    · rw [Function.update_of_ne hh] at hn
      cases hn
  · intro t
    rw [hmem, hst]
    by_cases ht : t = main
    · subst ht
      simp [hm]
    · simp [State.start, ht]
  · intro h t hh ht
    exact absurd ((hmem h t).mp ht).1 hh
  · intro t _ htc
    change t ≠ main at htc
    rw [hst, if_neg htc]
    exact Status.noConfusion
  · exact fun h hmt => hm ((hmem h main).mp hmt).2

end Frog.Thread
