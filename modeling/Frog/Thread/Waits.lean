import Frog.Thread.Lists

/-!
# Waiting and waking

The running thread goes into a waiting list, and it takes others out of one.
-/

namespace Frog.Thread

set_option autoImplicit false
open Prog

variable {s : State} {L : Head → List Node} {h : Head} {E : Stop → Prop}

theorem Lists.setPc {p : Pc} (hL : Lists s L) (hi : s.cur ≠ s.idle)
    (hp : ∀ h, h ≠ .ready → .tag s.cur ∈ L h → p.waitsIn = some h) :
    Lists (s.setPc s.cur p) L := by
  have hpc : ∀ u, (s.setPc s.cur p).pc u = if u = s.cur then p else s.pc u :=
    fun u => Function.update_apply ..
  refine ⟨hL.rings, hL.tags, hL.ready, ?_, hL.others, hL.cur_mem, hL.idle_mem, ?_, hL.idle_status⟩
  · intro h u hh hu
    rw [hpc]
    obtain ⟨h1, h2⟩ := hL.waits h u hh hu
    refine ⟨?_, h2⟩
    by_cases huc : u = s.cur
    · subst huc
      rw [if_pos rfl]
      exact hp h hh hu
    · rwa [if_neg huc]
  · rw [hpc, show (s.setPc s.cur p).idle = s.idle from rfl, if_neg hi.symm]
    exact hL.idle_pc

theorem Lists.setPc_loose {p : Pc} (hL : Lists s L) (hi : s.cur ≠ s.idle) (hl : Loose L s.cur) :
    Lists (s.setPc s.cur p) L :=
  hL.setPc hi fun h _ hm => absurd hm (hl h)

theorem Lists.setQueue (hL : Lists s L) (q : Nat) (c : CircleQueue) : Lists (s.setQueue q c) L :=
  ⟨hL.rings, hL.tags, hL.ready, hL.waits, hL.others, hL.cur_mem, hL.idle_mem, hL.idle_pc,
    hL.idle_status⟩

theorem Lists.setRet (hL : Lists s L) (t : Tid) (r : Ret) : Lists (s.setRet t r) L :=
  ⟨hL.rings, hL.tags, hL.ready, hL.waits, hL.others, hL.cur_mem, hL.idle_mem, hL.idle_pc,
    hL.idle_status⟩

/-! ## Going into a list -/

/-- The running thread is the last in the list `h` and goes on at `p`. -/
def State.queued (s : State) (h : Head) (p : Pc) : State :=
  (s.setLinks (s.links.addTail (.tag s.cur) (.head h))).setPc s.cur p

/-- A thread at the end of a list. -/
def behind (L : Head → List Node) (h : Head) (t : Tid) : Head → List Node :=
  Function.update L h (L h ++ [.tag t])

theorem Lists.queued {p : Pc} (hL : Lists s L) (hi : s.cur ≠ s.idle) (hl : Loose L s.cur)
    (hh : h ≠ .ready) (hp : p.waitsIn = some h) : Lists (s.queued h p) (behind L h s.cur) := by
  have hpc : ∀ u, (s.queued h p).pc u = if u = s.cur then p else s.pc u :=
    fun u => Function.update_apply ..
  refine ⟨hL.rings.addTail hl.unlinked, ?_, ?_, ?_, hL.others, hL.cur_mem, hL.idle_mem, ?_,
    hL.idle_status⟩
  · intro k n hn
    by_cases hk : k = h
    · subst hk
      rw [behind, Function.update_self] at hn
      rcases List.mem_append.mp hn with hn | hn
      · exact hL.tags _ n hn
      · exact ⟨s.cur, hL.cur_mem, List.mem_singleton.mp hn⟩
    · rw [behind, Function.update_of_ne hk] at hn
      exact hL.tags k n hn
  · intro u
    rw [behind, Function.update_of_ne hh.symm]
    exact hL.ready u
  · intro k u hk hu
    rw [hpc]
    by_cases huc : u = s.cur
    · subst huc
      rw [if_pos rfl]
      refine ⟨?_, fun hne => absurd rfl hne⟩
      by_cases hkh : k = h
      · rwa [hkh]
      · rw [behind, Function.update_of_ne hkh] at hu
        exact absurd hu (hl k)
    · rw [if_neg huc]
      refine hL.waits k u hk ?_
      by_cases hkh : k = h
      · subst hkh
        rw [behind, Function.update_self, List.mem_append, List.mem_singleton] at hu
        rcases hu with hu | hu
        · exact hu
        · cases hu
          exact absurd rfl huc
      · rwa [behind, Function.update_of_ne hkh] at hu
  · rw [hpc, show (s.queued h p).idle = s.idle from rfl, if_neg hi.symm]
    exact hL.idle_pc

theorem behind_ready {t : Tid} (hh : h ≠ .ready) : behind L h t .ready = L .ready :=
  Function.update_of_ne hh.symm ..

/-- One pass of `semaphore_down`: the thread waits or takes the semaphore. -/
theorem wp_semaphoreDown {Q : Unit → State → Prop} {q : Nat} {again through : Pc} (hL : Lists s L)
    (hl : Loose L s.cur) (hi : s.cur ≠ s.idle) (ha : again.waitsIn = some (.waiters q))
    (he : (s.lock q).value ≠ 0 → (s.lock q).value - 1 ≠ 0 → E .panic)
    (hwait : (s.lock q).value = 0 → ∀ t,
      Switched ((s.queued (.waiters q) again).setStatus s.cur .blocked)
        (behind L (.waiters q) s.cur) t → Q () t)
    (htake : (s.lock q).value ≠ 0 → (s.lock q).value - 1 = 0 → Q ()
      ((s.setLock q { s.lock q with value := (s.lock q).value - 1 }).setPc s.cur through)) :
    wp E (semaphoreDown q again through) Q s := by
  unfold semaphoreDown
  simp only [wp_bind, wp_lockAt, wp_ite, wp_runningThread]
  refine ⟨fun hv => ?_, fun hv => ?_⟩
  · rw [wp_find_loose hL (hl _)]
    simp only [wp_check, wp_listAddTail, wp_goto, true_implies, not_true, false_implies, and_true]
    have hL' := hL.queued hi hl (h := .waiters q) Head.noConfusion ha
    refine wp_threadBlock hL' ?_ (fun hx => (hx (.inr (.inr rfl))).elim) (fun _ _ _ => .inl rfl)
      (fun _ => rfl) fun _ => hwait hv
    rw [behind_ready Head.noConfusion]
    exact hl .ready
  · simp only [wp_check, wp_setLock, wp_goto]
    exact ⟨htake hv, he hv⟩

theorem wp_addToWaitingList {Q : Unit → State → Prop} {p : Pc} (hL : Lists s L) (hl : Loose L s.cur)
    (hi : s.cur ≠ s.idle) (hh : h ≠ .ready) (hp : p.waitsIn = some h)
    (hQ : Lists (s.queued h p) (behind L h s.cur) → Q () (s.queued h p)) :
    wp E (addToWaitingList h >>= fun _ => goto p) Q s := by
  unfold addToWaitingList
  simp only [wp_bind, wp_runningThread]
  rw [wp_find_loose hL (hl _)]
  simp only [wp_check, wp_listAddTail, wp_goto, true_implies, not_true, false_implies, and_true]
  exact hQ (hL.queued hi hl hh hp)

/-! ## Out of a list -/

/-- Threads were woken; the running one still runs and is in no new list. -/
structure Woke (s : State) (L : Head → List Node) (t : State) (L' : Head → List Node) : Prop where
  code : SameCode s t
  cur_eq : t.cur = s.cur
  running : t.status s.cur = s.status s.cur
  lists : Lists t L'
  stay : ∀ h, .tag s.cur ∈ L' h → .tag s.cur ∈ L h

theorem Woke.refl (hL : Lists s L) : Woke s L s L := ⟨.refl s, rfl, rfl, hL, fun _ => id⟩

theorem Woke.trans {t u : State} {L' L'' : Head → List Node} (h : Woke s L t L')
    (h' : Woke t L' u L'') : Woke s L u L'' := by
  refine ⟨h.code.trans h'.code, h'.cur_eq.trans h.cur_eq, ?_, h'.lists, fun k hk => h.stay k ?_⟩
  · rw [← h.running, ← h.cur_eq, h'.running]
  · rw [← h.cur_eq] at hk ⊢
    exact h'.stay k hk

theorem Woke.loose {t : State} {L' : Head → List Node} (h : Woke s L t L') (hl : Loose L s.cur) :
    Loose L' t.cur := fun k hk => hl k (h.stay k (h.cur_eq ▸ hk))

/-- The first thread of a waiting list is taken out. -/
theorem Lists.popped {w : Tid} {ws : List Node} (hL : Lists s L) (hh : h ≠ .ready)
    (hw : L h = .tag w :: ws) :
    Lists (s.setLinks (s.links.delInit (.tag w))) (Function.update L h ws) ∧
      Loose (Function.update L h ws) w := by
  have hsub : ∀ k, ∀ n ∈ Function.update L h ws k, n ∈ L k := by
    intro k n hn
    by_cases hk : k = h
    · subst hk
      rw [Function.update_self] at hn
      simp [hw, hn]
    · rwa [Function.update_of_ne hk] at hn
  refine ⟨⟨(hL.rings.pop hw).2, fun k n hn => hL.tags k n (hsub k n hn), ?_,
    fun k u hk hu => hL.waits k u hk (hsub k _ hu), hL.others, hL.cur_mem, hL.idle_mem, hL.idle_pc,
    hL.idle_status⟩, ?_⟩
  · intro u
    rw [Function.update_of_ne hh.symm]
    exact hL.ready u
  · intro k hk
    by_cases hkh : k = h
    · subst hkh
      rw [Function.update_self] at hk
      have hnd := (List.nodup_cons.mp (hL.rings.ring k).nodup).2
      rw [hw, List.nodup_cons] at hnd
      exact hnd.1 hk
    · rw [Function.update_of_ne hkh] at hk
      have hwm : Node.tag w ∈ L h := by simp [hw]
      exact hkh (hL.rings.mem_unique hk hwm)

/-- The first thread of a waiting list is woken. -/
theorem wp_wakeFirst {Q : Unit → State → Prop} {w : Tid} {ws : List Node} (hL : Lists s L)
    (hh : h ≠ .ready) (hw : L h = .tag w :: ws) (he : .tag s.cur ∈ L h → E .panic)
    (hr : s.status s.cur = .running) (hQ : ∀ t L', Woke s L t L' → L' h = ws → Q () t) :
    wp E (listPop h >>= fun n => containerOf n >>= fun t => threadUnblock t) Q s := by
  obtain ⟨hL', hl⟩ := hL.popped hh hw
  have hwm : Node.tag w ∈ L h := by simp [hw]
  have hsleep : w ≠ s.cur → Sleeping (s.status w) := by
    intro hne
    rcases (hL.waits h w hh hwm).2 hne with hs | hs
    · exact .inr (.inr hs)
    · exact .inr (.inl hs)
  obtain ⟨u, hu, hue⟩ := hL.tags h _ hwm
  cases hue
  simp only [wp_bind, wp_listPop, (hL.rings.pop hw).1, wp_containerOf_tag]
  refine wp_threadUnblock hL' hu (fun _ => hl) (fun hs => ?_) fun hs hL'' => ?_
  · by_cases hwc : w = s.cur
    · exact he (hwc ▸ hwm)
    · exact absurd (hsleep hwc) hs
  · have hwc : s.cur ≠ w := by
      rintro rfl
      exact hs.ne_running hr
    refine hQ _ _ ⟨⟨rfl, rfl, rfl, rfl, rfl, rfl, rfl⟩, rfl, Function.update_of_ne hwc .., hL'', ?_⟩ ?_
    · intro k hk
      by_cases hkr : k = .ready
      · subst hkr
        rw [enlist_ready, Function.update_of_ne hh.symm] at hk
        rcases List.mem_cons.mp hk with hk | hk
        · cases hk
          exact absurd rfl hwc
        · exact hk
      · rw [enlist_of_ne hkr] at hk
        by_cases hkh : k = h
        · subst hkh
          rw [Function.update_self] at hk
          simp [hw, hk]
        · rwa [Function.update_of_ne hkh] at hk
    · rw [enlist_of_ne hh, Function.update_self]

theorem wp_semaphoreUp {Q : Unit → State → Prop} {q : Nat} (hL : Lists s L)
    (hr : s.status s.cur = .running) (he : .tag s.cur ∈ L (.waiters q) → E .panic)
    (hv : (s.lock q).value + 1 ≠ 1 → E .panic)
    (hQ : ∀ t L', Woke s L t L' → (s.lock q).value + 1 = 1 →
      Q () (t.setLock q { s.lock q with value := (s.lock q).value + 1 })) :
    wp E (semaphoreUp q) Q s := by
  unfold semaphoreUp
  simp only [wp_bind, wp_listIsEmpty, isEmpty_eq hL]
  by_cases hemp : L (.waiters q) = []
  · simp only [hemp, decide_true, Bool.true_eq_false, if_false, wp_bind, wp_lockAt, wp_check,
      wp_setLock]
    exact ⟨hQ s L (.refl hL), hv⟩
  · obtain ⟨n, ws, hw⟩ := List.exists_cons_of_ne_nil hemp
    obtain ⟨w, -, rfl⟩ := hL.tags (.waiters q) n (by simp [hw])
    simp only [hemp, decide_false, if_true]
    have hwake := wp_wakeFirst (E := E) (Q := fun _ t => wp E (lockAt q >>= fun l =>
        check (l.value + 1 = 1) .panic >>= fun _ => setLock q { l with value := l.value + 1 }) Q t)
      hL Head.noConfusion hw he hr ?_
    · simpa only [wp_bind] using hwake
    · intro t L' hwoke _
      have hlock : t.lock q = s.lock q := by rw [State.lock, State.lock, hwoke.code.queue_eq]
      simp only [wp_bind, wp_lockAt, wp_check, wp_setLock, hlock]
      exact ⟨hQ t L' hwoke, hv⟩

theorem wp_wakeUp {Q : Unit → State → Prop} {n : Nat} (hh : h ≠ .ready) (hL : Lists s L)
    (hn : (L h).length < n) (hr : s.status s.cur = .running) (he : .tag s.cur ∈ L h → E .panic)
    (hQ : ∀ t L', Woke s L t L' → Q () t) : wp E (wakeUp h n) Q s := by
  induction n generalizing s L with
  | zero => exact absurd hn (Nat.not_lt_zero _)
  | succ n ih =>
    unfold wakeUp
    simp only [wp_bind]
    rw [wp_listLength hL]
    cases hlist : L h with
    | nil =>
      simp only [List.length_nil, Nat.lt_irrefl, if_false, wp_pure]
      exact hQ s L (.refl hL)
    | cons m ws =>
      obtain ⟨w, -, rfl⟩ := hL.tags h m (by simp [hlist])
      simp only [List.length_cons, Nat.succ_pos, if_true]
      have hwake := wp_wakeFirst (E := E) (Q := fun _ t => wp E (wakeUp h n) Q t) hL hh hlist he hr ?_
      · simpa only [wp_bind] using hwake
      · intro t L' hwoke hws
        refine ih hwoke.lists ?_ ?_ ?_ ?_
        · rw [hws]
          simpa [hlist] using hn
        · rw [hwoke.cur_eq, hwoke.running, hr]
        · rw [hwoke.cur_eq]
          exact fun hm => he (hwoke.stay h hm)
        · exact fun u L'' hu => hQ u L'' (hwoke.trans hu)

theorem wp_wakeUpAll {Q : Unit → State → Prop} (hh : h ≠ .ready) (hL : Lists s L)
    (hr : s.status s.cur = .running) (he : .tag s.cur ∈ L h → E .panic)
    (hQ : ∀ t L', Woke s L t L' → Q () t) : wp E (wakeUpAll h) Q s := by
  unfold wakeUpAll
  simp only [wp_bind, wp_listIsEmpty, wp_ite, wp_get, wp_pure]
  exact ⟨fun _ => wp_wakeUp hh hL (hL.length_lt h) hr he hQ, fun _ => hQ s L (.refl hL)⟩

end Frog.Thread
