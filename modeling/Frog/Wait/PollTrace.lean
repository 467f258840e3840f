import Frog.Mm.Queues
import Frog.Wait.Poll
import Frog.Wait.Queues

/-!
# Polling leaves no trace

While a thread polls, the queues hold what the other waiters put there and the entries of its poll table,
each page of the table is a page of the kernel, and its timer is pending at most while it sleeps. What
`poll_freewait` takes off the table it takes off the queues.
-/

namespace Frog.Poll

set_option autoImplicit false
open Prog

section Trace
variable {O : Type}

/-! ## The invariant -/

def Entry.waiter : Entry O → Option O
  | .own _ _ => none
  | .other o => some o

/-- The entry at place `k` of the page at `page` is for the queue `q`. -/
def Recorded (T : List PollTablePage) (q page k : Nat) : Prop :=
  ∃ p ∈ T, p.addr = page ∧ ∃ e, p.entries[k]? = some e ∧ e.waitAddress = q

/-- The queues have the entries `Q`: in their order those of the other waiters, and those recorded in `T`. -/
structure Holds (T : List PollTablePage) (s : State O) (Q : Nat → List (Entry O)) : Prop where
  queued : Wait.Queued s.wait Q
  others : ∀ q, (Q q).filterMap Entry.waiter = s.waiters q
  own : ∀ q page k, .own page k ∈ Q q ↔ Recorded T q page k

/-- The timer `timer` is not pending, unless it is `armed`. -/
def Timed (timer : Nat) (armed : Bool) (s : Timer.State) : Prop :=
  ∃ a, Timer.Agrees s a ∧ (armed = false → a.due timer = none)

/-- What is left to undo is in the pages `T`. -/
structure Inv (timer : Nat) (armed : Bool) (T : List PollTablePage) (s : State O) : Prop where
  queues : ∃ Q, Holds T s Q
  pages : ∃ ps : List (Nat × Nat), ps.map Prod.fst = T.map PollTablePage.addr ∧ Mm.HasPages s.mm ps
  timers : Timed timer armed s.timer

/-- Between two steps of the thread. -/
structure Polling [DecidableEq O] (c : Call O) (s : State O) : Prop where
  inv : Inv c.timer false s.pt.table s
  idle : s.timer.phase = .idle
  filled : ∀ p ∈ s.pt.table, p.entries ≠ []

variable {s t : State O} {T : List PollTablePage} {Q : Nat → List (Entry O)} {timer q : Nat}
  {armed : Bool} {X : Stop → Prop}

theorem Entry.waiter_other (o : O) : (Entry.other o).waiter = some o := rfl

theorem Entry.mem_waiters {es : List (Entry O)} {o : O} :
    o ∈ es.filterMap Entry.waiter ↔ .other o ∈ es := by
  rw [List.mem_filterMap]
  constructor
  · intro h
    obtain ⟨e, he, ho⟩ := h
    cases e with
    | own page k => cases ho
    | other o' =>
      cases ho
      exact he
  · intro h
    exact ⟨_, h, rfl⟩

theorem Entry.waiters_erase [DecidableEq O] {es : List (Entry O)} {o : O} :
    (es.erase (.other o)).filterMap Entry.waiter = (es.filterMap Entry.waiter).erase o := by
  induction es with
  | nil => rfl
  | cons e es ih =>
    cases e with
    | own page k =>
      rw [List.erase_cons_tail (by simp), List.filterMap_cons_none rfl, List.filterMap_cons_none rfl, ih]
    | other o' =>
      rw [List.filterMap_cons_some (Entry.waiter_other o')]
      by_cases ho : o' = o
      · rw [ho, List.erase_cons_head, List.erase_cons_head]
      · rw [List.erase_cons_tail (by simpa using ho), List.erase_cons_tail (by simpa using ho),
          List.filterMap_cons_some (Entry.waiter_other o'), ih]

theorem Entry.waiters_erase_own [DecidableEq O] {es : List (Entry O)} {page k : Nat} :
    (es.erase (.own page k)).filterMap Entry.waiter = es.filterMap Entry.waiter := by
  induction es with
  | nil => rfl
  | cons e es ih =>
    by_cases he : e = .own page k
    · rw [he, List.erase_cons_head, List.filterMap_cons_none rfl]
    · rw [List.erase_cons_tail (by simpa using he), List.filterMap_cons, List.filterMap_cons, ih]

theorem Entry.own_mem_erase [DecidableEq O] {es : List (Entry O)} {o : O} {page k : Nat} :
    Entry.own page k ∈ es.erase (.other o) ↔ .own page k ∈ es := by
  apply List.mem_erase_of_ne
  simp

/-! ## A turn of the others -/

section Others
variable [DecidableEq O]

omit [DecidableEq O] in
theorem Holds.wait (h : Holds T s Q) {w : Wait.State (Entry O)} (hw : Wait.Queued w Q) :
    Holds T { s with wait := w } Q := ⟨hw, h.others, h.own⟩

omit [DecidableEq O] in
theorem Holds.join (h : Holds T s Q) {o : O} {w : Wait.State (Entry O)}
    (hw : Wait.Queued w (Function.update Q q (.other o :: Q q))) :
    Holds T { s with wait := w, waiters := Function.update s.waiters q (o :: s.waiters q) }
      (Function.update Q q (.other o :: Q q)) := by
  refine ⟨hw, ?_, ?_⟩
  · intro r
    by_cases hr : r = q
    · subst hr
      simp [Entry.waiter, h.others r]
    · simp [Function.update_of_ne hr, h.others r]
  · intro r page k
    by_cases hr : r = q
    · subst hr
      simp [← h.own r page k]
    · rw [Function.update_of_ne hr]
      exact h.own r page k

theorem Holds.leave (h : Holds T s Q) {o : O} {w : Wait.State (Entry O)}
    (hw : Wait.Queued w (Function.update Q q ((Q q).erase (.other o)))) :
    Holds T { s with wait := w, waiters := Function.update s.waiters q ((s.waiters q).erase o) }
      (Function.update Q q ((Q q).erase (.other o))) := by
  refine ⟨hw, ?_, ?_⟩
  · intro r
    by_cases hr : r = q
    · subst hr
      simp [Entry.waiters_erase, h.others r]
    · simp [Function.update_of_ne hr, h.others r]
  · intro r page k
    by_cases hr : r = q
    · subst hr
      rw [Function.update_self, Entry.own_mem_erase]
      exact h.own r page k
    · rw [Function.update_of_ne hr]
      exact h.own r page k

omit [DecidableEq O] in
theorem drop_none {a : Timer.Agenda} {t : Nat} (h : a.due timer = none) :
    (a.drop t).due timer = none := by
  by_cases ht : timer = t
  · rw [ht]
    exact Function.update_self ..
  · exact (Function.update_of_ne ht ..).trans h

/-- The timers run, and are added and removed, but for this one. -/
theorem Timed.step {u v : Timer.State} {e : Timer.Event} (h : Timed timer armed u)
    (hadd : ∀ x, e ≠ .add timer x) (hstep : Timer.Step u e v) : Timed timer armed v := by
  obtain ⟨a, ha, hdue⟩ := h
  have hw : Timer.Watched (u, a) e (v, a.after u.phase e v.phase) := ⟨hstep, rfl⟩
  refine ⟨_, hw.agrees ha, fun harmed => ?_⟩
  have hnone := hdue harmed
  cases e with
  | add t x =>
    have hne : timer ≠ t := by
      intro he
      exact hadd x (he ▸ rfl)
    unfold Timer.Agenda.after
    simp only
    split
    · exact (Function.update_of_ne hne ..).trans hnone
    · exact hnone
  | del t => exact drop_none hnone
  | tick => exact hnone
  | bh => exact hnone
  | ret => exact hnone
  | go =>
    unfold Timer.Agenda.after
    simp only
    split
    · exact drop_none hnone
    · exact hnone
    · exact hnone

theorem Other.pt (h : Other timer s t) : t.pt = s.pt := by
  cases h <;> rfl

theorem Inv.other (h : Inv timer armed s.pt.table s) (ho : Other timer s t) :
    Inv timer armed s.pt.table t := by
  obtain ⟨⟨Q, hQ⟩, hpages, htimers⟩ := h
  cases ho with
  | join q o p w hnew hrun =>
    have hout : ∀ q', .other o ∉ Q q' := by
      intro q' hm
      rw [← Entry.mem_waiters, hQ.others q'] at hm
      exact hnew q' hm
    have hjoin : wp (fun _ => True) (do
        Wait.initWaitqueueEntry (Entry.other o) p
        Wait.addWaitQueue q (Entry.other o))
        (fun _ w => Wait.Queued w (Function.update Q q (.other o :: Q q))) s.wait := by
      rw [wp_bind]
      exact wp_mono hQ.queued.init fun _ _ hw => hw.1.add hout hw.2
    have hw := wp_ok hjoin hrun
    exact ⟨⟨_, hQ.join hw⟩, hpages, htimers⟩
  | leave q o w hmem hrun =>
    have hin : .other o ∈ Q q := by
      rw [← Entry.mem_waiters, hQ.others q]
      exact hmem
    have hw := wp_ok (E := fun _ => True) (hQ.queued.remove hin) hrun
    exact ⟨⟨_, hQ.leave hw⟩, hpages, htimers⟩
  | wake n q mode nr w hrun => exact ⟨⟨Q, hQ.wait (hQ.queued.wakeUp hrun)⟩, hpages, htimers⟩
  | schedule links status ps hready hsame =>
    exact ⟨⟨Q, hQ.wait (hQ.queued.schedule hready hsame)⟩, hpages, htimers⟩
  | timer e u hadd _ hstep => exact ⟨⟨Q, hQ.queued, hQ.others, hQ.own⟩, hpages, htimers.step hadd hstep⟩
  | memory u hpaged hheld =>
    refine ⟨⟨Q, hQ.queued, hQ.others, hQ.own⟩, ?_, htimers⟩
    obtain ⟨ps, haddr, hps⟩ := hpages
    refine ⟨ps, haddr, hpaged hps.paged, ?_, hps.addresses, hps.frames⟩
    intro x hx
    have hm : x.1 ∈ s.pt.table.map PollTablePage.addr := haddr ▸ List.mem_map_of_mem hx
    obtain ⟨page, hpage, he⟩ := List.mem_map.mp hm
    have hxs := hps.held x hx
    rw [← he] at hxs ⊢
    exact hheld page hpage x.2 hxs
  | device fdTable dev full res => exact ⟨⟨Q, hQ.queued, hQ.others, hQ.own⟩, hpages, htimers⟩

theorem Inv.others (h : Inv timer armed s.pt.table s)
    (ho : Relation.ReflTransGen (Other timer) s t) : Inv timer armed s.pt.table t ∧ t.pt = s.pt := by
  induction ho with
  | refl => exact ⟨h, rfl⟩
  | tail _ hstep ih =>
    obtain ⟨hinv, hpt⟩ := ih
    rw [← hpt] at hinv ⊢
    exact ⟨hinv.other hstep, hstep.pt⟩

end Others

/-! ## Steps of the thread -/

section Own
variable [DecidableEq O] {c : Call O}

omit [DecidableEq O] in
theorem Inv.congr (h : Inv timer armed T s) (hwait : t.wait = s.wait) (hwaiters : t.waiters = s.waiters)
    (htimer : t.timer = s.timer) (hmm : t.mm = s.mm) : Inv timer armed T t := by
  obtain ⟨⟨Q, hQ⟩, hpages, htimers⟩ := h
  refine ⟨⟨Q, ?_, ?_, hQ.own⟩, ?_, ?_⟩
  · rw [hwait]
    exact hQ.queued
  · rw [hwaiters]
    exact hQ.others
  · rw [hmm]
    exact hpages
  · rw [htimer]
    exact htimers

theorem Inv.turn (h : Inv c.timer armed s.pt.table s) (hidle : s.timer.phase = .idle) :
    wp X (turn c) (fun _ t => Inv c.timer armed s.pt.table t ∧ t.pt = s.pt ∧ t.timer.phase = .idle) s := by
  obtain ⟨hinv, hpt⟩ := h.others (c.others.steps s.turns s)
  exact ⟨hinv.congr rfl rfl rfl rfl, hpt, c.others.idle _ _ hidle⟩

theorem Inv.setStatus (h : Inv timer armed T s) (x : Thread.Status) :
    wp X (setStatus c x) (fun _ t => Inv timer armed T t ∧ t.pt = s.pt ∧ t.timer = s.timer) s := by
  obtain ⟨⟨Q, hQ⟩, hpages, htimers⟩ := h
  have hqueued : Wait.Queued (s.wait.setStatus c.current x) Q :=
    hQ.queued.congr rfl (fun _ he => he) rfl
  unfold Poll.setStatus onWait
  rw [wp_zoom, wp_modify]
  exact ⟨⟨⟨Q, hQ.wait hqueued⟩, hpages, htimers⟩, rfl, rfl⟩

theorem Polling.turn (h : Polling c s) : wp X (turn c) (fun _ t => Polling c t) s := by
  refine wp_mono (h.inv.turn h.idle) fun _ t ht => ?_
  obtain ⟨hinv, hpt, hidle⟩ := ht
  refine ⟨?_, hidle, ?_⟩
  · rw [hpt]
    exact hinv
  · rw [hpt]
    exact h.filled

theorem Polling.setStatus (h : Polling c s) (x : Thread.Status) :
    wp X (setStatus c x) (fun _ t => Polling c t) s := by
  refine wp_mono (h.inv.setStatus x) fun _ t ht => ?_
  obtain ⟨hinv, hpt, htimer⟩ := ht
  refine ⟨?_, ?_, ?_⟩
  · rw [hpt]
    exact hinv
  · rw [htimer]
    exact h.idle
  · rw [hpt]
    exact h.filled

/-! ## `schedule_timeout` -/

section Timers
variable {u : Timer.State} {a : Timer.Agenda} {Y : Timer.Stop → Prop}

omit [DecidableEq O] in
theorem not_pending (h : Timer.Agrees u a) (hd : a.due timer = none) : u.pending timer = false := by
  obtain ⟨-, -, L, R, hheld⟩ := h
  rw [hheld.pending_iff timer, hd]
  rfl

/-- A timer that is not pending is cleared as by `del_timer`. -/
theorem wp_initTimer (h : Timer.Agrees u a) (hd : a.due timer = none) :
    wp Y (initTimer timer) (fun _ v => v.phase = u.phase ∧ Timer.Agrees v (a.drop timer)) u := by
  have hrun : Timer.doEvent 0 (.del timer) u = initTimer timer u := by
    have hp : ¬ u.pending timer = true := by
      rw [not_pending h hd]
      exact Bool.false_ne_true
    rw [Timer.doEvent, Timer.delTimer, Timer.detachTimer, bind_ok (get_apply u), if_neg hp]
    rfl
  refine (wp_of_run hrun).mp (wp_mono (Timer.wp_del h) fun _ v hv => ?_)
  exact ⟨hv.1, hv.2.1⟩

theorem wp_addTimer (h : Timer.Agrees u a) (hd : a.due timer = none) (hidle : u.phase = .idle)
    (x : BitVec 32) :
    wp Y (Timer.addTimer timer) (fun _ v => v.phase = u.phase ∧ Timed timer true v)
      (u.setExpires timer x) := by
  have hrun : Timer.doEvent 0 (.add timer x) u = Timer.addTimer timer (u.setExpires timer x) := by
    rw [Timer.doEvent, bind_ok (get_apply u), if_pos (not_pending h hd)]
    rfl
  refine (wp_of_run hrun).mp (wp_mono (Timer.wp_add h (.inl hidle)) fun _ v hv => ?_)
  refine ⟨hv.1, _, hv.2.1, ?_⟩
  intro hfalse
  cases hfalse

theorem wp_delTimer (h : Timed timer armed u) :
    wp Y (Timer.delTimer timer) (fun _ v => v.phase = u.phase ∧ Timed timer false v) u := by
  obtain ⟨a, ha, -⟩ := h
  have hdel : wp Y (Timer.doEvent 0 (.del timer)) _ u := Timer.wp_del ha
  refine wp_mono hdel fun _ v hv => ?_
  exact ⟨hv.1, _, hv.2.1, fun _ => Function.update_self ..⟩

end Timers

theorem Polling.sleep (h : Polling c s) (expire : BitVec 32) :
    wp X (do
      onTimer (initTimer c.timer)
      onTimer (modify fun w => w.setExpires c.timer expire)
      onTimer (Timer.addTimer c.timer)
      Poll.turn c
      onTimer (Timer.delTimer c.timer)) (fun _ t => Polling c t) s := by
  obtain ⟨⟨hqueues, hpages, a, ha, hd⟩, hidle, hfilled⟩ := h
  have hnone : (a.drop c.timer).due c.timer = none := Function.update_self ..
  simp only [onTimer, wp_bind, wp_zoom, wp_modify]
  refine wp_mono (wp_initTimer ha (hd rfl)) fun _ u hu => ?_
  obtain ⟨hphase, hu⟩ := hu
  refine wp_mono (wp_addTimer hu hnone (hphase.trans hidle) expire) fun _ v hv => ?_
  obtain ⟨hphase', hv⟩ := hv
  have hinv : Inv c.timer true s.pt.table { s with timer := v } := by
    obtain ⟨Q, hQ⟩ := hqueues
    exact ⟨⟨Q, hQ.queued, hQ.others, hQ.own⟩, hpages, hv⟩
  have hidle' : v.phase = .idle := hphase'.trans (hphase.trans hidle)
  refine wp_mono (hinv.turn hidle') fun _ t ht => ?_
  obtain ⟨⟨⟨Q, hQ⟩, hpages', htimers⟩, hpt, hidle''⟩ := ht
  refine wp_mono (wp_delTimer htimers) fun _ w hw => ?_
  obtain ⟨hphase'', hw⟩ := hw
  refine ⟨⟨⟨Q, hQ.queued, hQ.others, ?_⟩, ?_, hw⟩, hphase''.trans hidle'', ?_⟩
  · rw [hpt]
    exact hQ.own
  · rw [hpt]
    exact hpages'
  · rw [hpt]
    exact hfilled

theorem Polling.scheduleTimeout (h : Polling c s) (timeout : BitVec 32) :
    wp X (scheduleTimeout c timeout) (fun _ t => Polling c t) s := by
  unfold Poll.scheduleTimeout
  rw [wp_ite]
  refine ⟨fun _ => ?_, fun _ => ?_⟩
  · rw [wp_bind]
    exact h.turn
  · rw [wp_ite]
    refine ⟨fun _ => ?_, fun _ => ?_⟩
    · rw [wp_bind]
      exact h.setStatus .running
    · have hsleep := h.sleep (X := X) (timeout + s.timer.ticks)
      simp only [wp_bind, wp_get, wp_pure] at hsleep ⊢
      exact hsleep

/-! ## The poll table -/

omit [DecidableEq O] in
theorem recorded_cons {p : PollTablePage} {page k : Nat} : Recorded (p :: T) q page k ↔
    (p.addr = page ∧ ∃ e, p.entries[k]? = some e ∧ e.waitAddress = q) ∨ Recorded T q page k := by
  unfold Recorded
  simp

omit [DecidableEq O] in
theorem recorded_empty {addr page k : Nat} :
    Recorded (⟨addr, []⟩ :: T) q page k ↔ Recorded T q page k := by
  rw [recorded_cons]
  simp

omit [DecidableEq O] in
theorem Inv.addresses (h : Inv timer armed T s) : (T.map PollTablePage.addr).Nodup := by
  obtain ⟨ps, haddr, hps⟩ := h.pages
  rw [← haddr]
  exact hps.addresses

omit [DecidableEq O] in
theorem not_recorded {page k : Nat} (h : page ∉ T.map PollTablePage.addr) : ¬ Recorded T q page k := by
  intro hr
  obtain ⟨p, hp, he, -⟩ := hr
  exact h (he ▸ List.mem_map_of_mem hp)

/-- A new entry at the end of the first page. -/
theorem recorded_append {p : PollTablePage} (filp : Nat) {page k r : Nat} :
    Recorded ({ p with entries := p.entries ++ [⟨filp, q⟩] } :: T) r page k ↔
      Recorded (p :: T) r page k ∨ r = q ∧ page = p.addr ∧ k = p.entries.length := by
  rw [recorded_cons, recorded_cons, List.getElem?_append]
  dsimp only
  rcases Nat.lt_trichotomy k p.entries.length with hk | hk | hk
  · rw [if_pos hk]
    exact (or_iff_left fun he => Nat.ne_of_lt hk he.2.2).symm
  · subst hk
    rw [if_neg (Nat.lt_irrefl _), Nat.sub_self, List.getElem?_eq_none (Nat.le_refl _)]
    simp
    tauto
  · rw [if_neg (Nat.not_lt_of_gt hk), List.getElem?_eq_none (Nat.le_of_lt hk),
      List.getElem?_eq_none (by simp; omega)]
    have hne : k ≠ p.entries.length := Nat.ne_of_gt hk
    tauto

/-- Without the last entry of the first page. -/
theorem recorded_take {p : PollTablePage} {page k j r : Nat}
    (h : p.addr ∉ T.map PollTablePage.addr) (hk : k < p.entries.length) :
    Recorded ({ p with entries := p.entries.take k } :: T) r page j ↔
      Recorded ({ p with entries := p.entries.take (k + 1) } :: T) r page j ∧
        ¬ (page = p.addr ∧ j = k) := by
  rw [recorded_cons, recorded_cons]
  by_cases hp : page = p.addr
  · subst hp
    have hT := not_recorded (q := r) (k := j) h
    rcases Nat.lt_trichotomy j k with hj | hj | hj
    · rw [List.getElem?_take_of_lt hj, List.getElem?_take_of_lt (by omega)]
      exact (and_iff_left fun he => Nat.ne_of_lt hj he.2).symm
    · subst hj
      simp [hT]
    · rw [List.getElem?_eq_none (by simp; omega), List.getElem?_eq_none (by simp; omega)]
      simp [hT]
  · have hp' : p.addr ≠ page := fun he => hp he.symm
    tauto

omit [DecidableEq O] in
theorem Holds.enter (h : Holds T s Q) {T' : List PollTablePage} {addr k : Nat}
    {w : Wait.State (Entry O)} (hw : Wait.Queued w (Function.update Q q (.own addr k :: Q q)))
    (hT : ∀ r page j, Recorded T' r page j ↔
      Recorded T r page j ∨ r = q ∧ page = addr ∧ j = k) :
    Holds T' { s with wait := w } (Function.update Q q (.own addr k :: Q q)) := by
  refine ⟨hw, ?_, ?_⟩
  · intro r
    by_cases hr : r = q
    · subst hr
      rw [Function.update_self, List.filterMap_cons_none rfl]
      exact h.others r
    · rw [Function.update_of_ne hr]
      exact h.others r
  · intro r page j
    rw [hT, ← h.own]
    by_cases hr : r = q
    · subst hr
      simp
      tauto
    · rw [Function.update_of_ne hr]
      tauto

theorem Holds.drop (h : Holds T s Q) {T' : List PollTablePage} {addr k : Nat}
    {w : Wait.State (Entry O)} (hm : .own addr k ∈ Q q)
    (hw : Wait.Queued w (Function.update Q q ((Q q).erase (.own addr k))))
    (hT : ∀ r page j, Recorded T' r page j ↔ Recorded T r page j ∧ ¬ (page = addr ∧ j = k)) :
    Holds T' { s with wait := w } (Function.update Q q ((Q q).erase (.own addr k))) := by
  refine ⟨hw, ?_, ?_⟩
  · intro r
    by_cases hr : r = q
    · subst hr
      rw [Function.update_self, Entry.waiters_erase_own]
      exact h.others r
    · rw [Function.update_of_ne hr]
      exact h.others r
  · intro r page j
    rw [hT, ← h.own]
    by_cases hr : r = q
    · subst hr
      rw [Function.update_self, (h.queued.nodup r).mem_erase_iff]
      simp
      tauto
    · rw [Function.update_of_ne hr]
      refine ⟨fun hin => ⟨hin, ?_⟩, fun hin => hin.1⟩
      intro he
      rw [he.1, he.2] at hin
      exact hr (h.queued.eq_of_mem hin hm)

/-- A first page is there, perhaps still without an entry. -/
structure Open (c : Call O) (s : State O) : Prop where
  inv : Inv c.timer false s.pt.table s
  idle : s.timer.phase = .idle
  front : ∃ page rest, s.pt.table = page :: rest ∧ ∀ p ∈ rest, p.entries ≠ []

theorem Polling.newTable (h : Polling c s) :
    wp X (newTable c) (fun got t => if got = true then Open c t else Polling c t) s := by
  unfold Poll.newTable onMm
  rw [wp_bind]
  refine wp_mono h.turn fun _ s₁ h₁ => ?_
  obtain ⟨hinv, hidle, hfilled⟩ := h₁
  obtain ⟨⟨Q, hQ⟩, ⟨ps, haddr, hps⟩, htimers⟩ := hinv
  rw [wp_bind, wp_zoom]
  rcases hps.getKernelPage with ⟨mm, hrun, hps'⟩ | ⟨a, i, mm, ha, hrun, hps'⟩
  · rw [wp_of_ok hrun, if_pos rfl]
    have h₂ : Polling c { s₁ with mm := mm, pt := { s₁.pt with error := -enomem } } :=
      ⟨⟨⟨Q, hQ.queued, hQ.others, hQ.own⟩, ⟨ps, haddr, hps'⟩, htimers⟩, hidle, hfilled⟩
    simp only [wp_bind, wp_modify, wp_pure]
    refine wp_mono (h₂.setStatus .running) fun _ t ht => ?_
    rw [if_neg Bool.false_ne_true]
    exact ht
  · rw [wp_of_ok hrun, if_neg ha]
    simp only [wp_bind, wp_modify, wp_pure, if_true]
    refine ⟨⟨⟨Q, hQ.queued, hQ.others, ?_⟩, ⟨(a, i) :: ps, ?_, hps'⟩, htimers⟩, hidle, _, _, rfl, hfilled⟩
    · intro q page k
      rw [recorded_empty]
      exact hQ.own q page k
    · rw [List.map_cons, List.map_cons, haddr]

theorem Open.addEntry (h : Open c s) (filp q : Nat) :
    wp X (addEntry c filp q) (fun _ t => Polling c t) s := by
  obtain ⟨hinv, hidle, page, rest, htable, hrest⟩ := h
  have hnodup := hinv.addresses
  rw [htable] at hinv hnodup
  obtain ⟨⟨Q, hQ⟩, hpages, htimers⟩ := hinv
  have hfresh : ∀ r, .own page.addr page.entries.length ∉ Q r := by
    intro r hm
    rw [hQ.own, recorded_cons, List.getElem?_eq_none (Nat.le_refl _)] at hm
    rcases hm with ⟨-, e, he, -⟩ | hm
    · cases he
    · exact not_recorded (List.nodup_cons.mp hnodup).1 hm
  unfold Poll.addEntry onWait
  rw [wp_bind, wp_get, htable]
  simp only [wp_bind, wp_modify, wp_zoom]
  refine wp_mono hQ.queued.init fun _ w hw => ?_
  refine wp_mono (hw.1.add hfresh hw.2) fun _ w' hw' => ?_
  have hQ' := hQ.enter hw' fun r page' j => recorded_append filp
  refine ⟨⟨⟨_, hQ'.queued, hQ'.others, hQ'.own⟩, hpages, htimers⟩, hidle, ?_⟩
  intro p hp
  rcases List.mem_cons.mp hp with rfl | hp
  · simp
  · exact hrest p hp

theorem Polling.open (h : Polling c s) (hn : s.pt.table ≠ []) : Open c s := by
  obtain ⟨page, rest, htable⟩ := List.exists_cons_of_ne_nil hn
  refine ⟨h.inv, h.idle, page, rest, htable, fun p hp => h.filled p ?_⟩
  rw [htable]
  exact List.mem_cons_of_mem _ hp

theorem Polling.pollwait (h : Polling c s) (filp q : Nat) :
    wp X (pollwait c filp q) (fun _ t => Polling c t) s := by
  unfold Poll.pollwait
  rw [wp_bind, wp_get, wp_ite]
  refine ⟨fun _ => ?_, fun hroom => ?_⟩
  · rw [wp_bind]
    refine wp_mono h.newTable fun got t ht => ?_
    rw [wp_ite]
    refine ⟨fun hgot => ?_, fun hgot => ?_⟩
    · rw [if_pos hgot] at ht
      exact ht.addEntry filp q
    · rw [if_neg hgot] at ht
      exact ht
  · refine (h.open fun hnil => hroom ?_).addEntry filp q
    unfold needsTable
    rw [hnil]

/-! ## `sys_poll` -/

theorem Polling.pollQueue (h : Polling c s) (queue file : Nat) (wait : Bool) :
    wp X (pollQueue c queue file wait) (fun _ t => Polling c t) s := by
  unfold Poll.pollQueue pollWait
  rw [wp_bind]
  refine wp_mono (Q := fun _ t => Polling c t) ?_ fun _ t ht => ?_
  · simp only [wp_ite]
    exact ⟨fun _ => h.pollwait file queue, fun _ => h⟩
  · rw [wp_bind, wp_get, wp_ite]
    exact ⟨fun _ => ht, fun _ => ht⟩

theorem Polling.sysPoll (h : Polling c s) (file : Nat) (wait : Bool) :
    wp X (sysPoll c file wait) (fun _ t => Polling c t) s := by
  unfold Poll.sysPoll
  rw [wp_bind, wp_get]
  cases s.dev file with
  | aux => exact h.pollQueue 0 file wait
  | pcMouse => exact h.pollQueue 1 file wait
  | pcKbd => exact h.pollQueue 2 file wait
  | other => exact h

theorem Polling.scan (hX : X .assert) (fds : List (BitVec 32)) (h : Polling c s) (i : Nat) (wait : Bool)
    (retval : Int) : wp X (scan c i fds wait retval) (fun _ t => Polling c t) s := by
  induction fds generalizing s i wait retval with
  | nil => exact h
  | cons fd fds ih =>
    unfold Poll.scan getFile
    simp only [wp_bind, wp_get, wp_check, wp_pure]
    refine ⟨fun _ => ?_, fun _ => hX⟩
    refine wp_mono (h.sysPoll _ wait) fun mask t ht => ?_
    rw [wp_ite]
    exact ⟨fun _ => ih ht (i + 1) false i, fun _ => ih ht (i + 1) wait retval⟩

theorem Polling.waitLoop (hX : X .assert) (hX' : X .hang) (fds : List (BitVec 32)) (fuel : Nat)
    (h : Polling c s) (wait : Bool) (timeout : BitVec 32) :
    wp X (waitLoop c fds fuel wait timeout) (fun _ t => Polling c t) s := by
  induction fuel generalizing s wait timeout with
  | zero => exact hX'
  | succ fuel ih =>
    unfold Poll.waitLoop
    rw [wp_bind]
    refine wp_mono h.turn fun _ s₁ h₁ => ?_
    rw [wp_bind]
    refine wp_mono (h₁.setStatus .waiting) fun _ s₂ h₂ => ?_
    rw [wp_bind]
    refine wp_mono (h₂.scan hX fds 0 wait (-1)) fun retval s₃ h₃ => ?_
    rw [wp_ite]
    refine ⟨fun _ => h₃, fun _ => ?_⟩
    rw [wp_bind, wp_get, wp_ite]
    refine ⟨fun _ => h₃, fun _ => ?_⟩
    rw [wp_bind]
    exact wp_mono (h₃.scheduleTimeout timeout) fun timeout' s₄ h₄ => ih h₄ false timeout'

/-! ## `poll_freewait` -/

/-- The last of the entries `0..k` of the first page is taken off its queue. -/
theorem Inv.removeLast {page : PollTablePage} {k : Nat} {entry : PollTableEntry}
    (h : Inv timer armed ({ page with entries := page.entries.take (k + 1) } :: T) s)
    (he : page.entries[k]? = some entry) :
    wp X (onWait (Wait.removeWaitQueue entry.waitAddress (.own page.addr k)))
      (fun _ t => Inv timer armed ({ page with entries := page.entries.take k } :: T) t ∧
        t.pt = s.pt ∧ t.mm = s.mm) s := by
  have hnodup := h.addresses
  obtain ⟨⟨Q, hQ⟩, hpages, htimers⟩ := h
  have hk : k < page.entries.length := (List.getElem?_eq_some_iff.mp he).1
  have hm : .own page.addr k ∈ Q entry.waitAddress := by
    rw [hQ.own, recorded_cons]
    refine .inl ⟨rfl, entry, ?_, rfl⟩
    rw [List.getElem?_take_of_lt (Nat.lt_succ_self k)]
    exact he
  unfold onWait
  rw [wp_zoom]
  refine wp_mono (hQ.queued.remove hm) fun _ w hw => ?_
  have hQ' := hQ.drop hm hw fun _ _ _ => recorded_take (List.nodup_cons.mp hnodup).1 hk
  exact ⟨⟨⟨_, hQ'⟩, hpages, htimers⟩, rfl, rfl⟩

theorem Inv.removeEntries {page : PollTablePage} (k : Nat)
    (h : Inv timer armed ({ page with entries := page.entries.take (k + 1) } :: T) s)
    (hk : k < page.entries.length) :
    wp X (removeEntries page (k + 1)) (fun _ t => Inv timer armed (⟨page.addr, []⟩ :: T) t ∧
      t.pt = s.pt ∧ t.mm = s.mm) s := by
  induction k generalizing s with
  | zero =>
    unfold Poll.removeEntries
    rw [wp_bind, wp_need, List.getElem?_eq_getElem hk]
    refine ⟨fun entry he => ?_, fun hn => by cases hn⟩
    rw [wp_bind]
    exact h.removeLast ((List.getElem?_eq_getElem hk).trans he)
  | succ k ih =>
    unfold Poll.removeEntries
    rw [wp_bind, wp_need, List.getElem?_eq_getElem hk]
    refine ⟨fun entry he => ?_, fun hn => by cases hn⟩
    rw [wp_bind]
    refine wp_mono (h.removeLast ((List.getElem?_eq_getElem hk).trans he)) fun _ t ht => ?_
    obtain ⟨ht, hpt, hmm⟩ := ht
    rw [if_pos (Nat.succ_pos k)]
    refine wp_mono (ih ht (Nat.lt_of_succ_lt hk)) fun _ u hu => ?_
    exact ⟨hu.1, hu.2.1.trans hpt, hu.2.2.trans hmm⟩

omit [DecidableEq O] in
/-- What is left of the page goes back to the kernel. -/
theorem Inv.freePage {addr : Nat} (h : Inv timer armed (⟨addr, []⟩ :: T) s) :
    wp X (onMm (Mm.mfreePage .kernel addr 1)) (fun _ t => Inv timer armed T t ∧ t.pt = s.pt ∧
      Mm.Returned t.mm addr ∧ ∀ b, Mm.Returned s.mm b → Mm.Returned t.mm b) s := by
  obtain ⟨⟨Q, hQ⟩, ⟨ps, haddr, hps⟩, htimers⟩ := h
  cases ps with
  | nil => cases haddr
  | cons x ps =>
    obtain ⟨a, i⟩ := x
    obtain ⟨ha, hrest⟩ := List.cons.inj haddr
    subst ha
    obtain ⟨mm, hrun, hps', hreturned, hkeep⟩ := hps.mfreePage
    unfold onMm
    rw [wp_zoom, wp_of_ok hrun]
    refine ⟨⟨⟨Q, hQ.queued, hQ.others, ?_⟩, ⟨ps, hrest, hps'⟩, htimers⟩, rfl, hreturned, hkeep⟩
    intro q page k
    rw [hQ.own]
    exact recorded_empty

theorem Inv.pollFreewait (h : Inv timer armed T s) (hfilled : ∀ p ∈ T, p.entries ≠ []) :
    wp X (pollFreewait T) (fun _ t => Inv timer armed [] t ∧ t.pt = s.pt ∧
      (∀ p ∈ T, Mm.Returned t.mm p.addr) ∧ ∀ b, Mm.Returned s.mm b → Mm.Returned t.mm b) s := by
  induction T generalizing s with
  | nil => exact ⟨h, rfl, fun p hp => absurd hp List.not_mem_nil, fun b hb => hb⟩
  | cons page T ih =>
    obtain ⟨k, hk⟩ := Nat.exists_eq_succ_of_ne_zero
      (List.length_pos_iff.mpr (hfilled page (by simp))).ne'
    have htake : page = { page with entries := page.entries.take (k + 1) } := by
      rw [List.take_of_length_le (Nat.le_of_eq hk)]
    unfold Poll.pollFreewait
    rw [wp_bind, hk]
    rw [htake] at h
    refine wp_mono (h.removeEntries k (by omega)) fun _ s₁ h₁ => ?_
    obtain ⟨h₁, hpt₁, hmm₁⟩ := h₁
    rw [wp_bind]
    refine wp_mono h₁.freePage fun _ s₂ h₂ => ?_
    obtain ⟨h₂, hpt₂, hpage, hkeep₂⟩ := h₂
    refine wp_mono (ih h₂ fun p hp => hfilled p (List.mem_cons_of_mem _ hp)) fun _ t ht => ?_
    obtain ⟨ht, hpt, hrest, hkeep⟩ := ht
    refine ⟨ht, hpt.trans (hpt₂.trans hpt₁), ?_, ?_⟩
    · intro p hp
      rcases List.mem_cons.mp hp with rfl | hp
      · exact hkeep _ hpage
      · exact hrest p hp
    · intro b hb
      rw [← hmm₁] at hb
      exact hkeep b (hkeep₂ b hb)

/-! ## `do_wait2` -/

/-- The queues hold the entries of the other waiters, and the timer is not pending. -/
structure Started (c : Call O) (s : State O) : Prop where
  queued : Wait.Queued s.wait fun q => (s.waiters q).map .other
  paged : Mm.Paged s.mm
  timers : Timed c.timer false s.timer
  idle : s.timer.phase = .idle

/-- Every queue holds the entries of the other waiters only, the timer is not pending, and each page of
the poll table is free. -/
structure NoTrace (c : Call O) (t : State O) : Prop where
  queues : ∀ q, RingList t.wait.links (.head q) ((t.waiters q).map fun o => .entry (.other o))
  timer : t.timer.pending c.timer = false
  pages : ∀ page ∈ t.pt.table, Mm.Returned t.mm page.addr

omit [DecidableEq O] in
theorem filterMap_waiters (os : List O) : (os.map Entry.other).filterMap Entry.waiter = os := by
  induction os with
  | nil => rfl
  | cons o os ih => rw [List.map_cons, List.filterMap_cons_some (Entry.waiter_other o), ih]

omit [DecidableEq O] in
theorem eq_map_other {es : List (Entry O)} (h : ∀ page k, .own page k ∉ es) :
    es = (es.filterMap Entry.waiter).map .other := by
  induction es with
  | nil => rfl
  | cons e es ih =>
    cases e with
    | own page k => exact absurd List.mem_cons_self (h page k)
    | other o =>
      rw [List.filterMap_cons_some (Entry.waiter_other o), List.map_cons,
        ← ih fun page k hm => h page k (List.mem_cons_of_mem _ hm)]

theorem Started.polling (h : Started c s) : Polling c { s with pt := ⟨0, []⟩ } := by
  refine ⟨⟨⟨_, h.queued, fun q => filterMap_waiters _, ?_⟩, ⟨[], rfl, ?_⟩, h.timers⟩, h.idle, ?_⟩
  · intro q page k
    simp [Recorded]
  · exact ⟨h.paged, fun x hx => absurd hx List.not_mem_nil, List.nodup_nil, List.nodup_nil⟩
  · intro p hp
    cases hp

theorem Inv.noTrace (h : Inv c.timer false [] s)
    (hpages : ∀ page ∈ s.pt.table, Mm.Returned s.mm page.addr) : NoTrace c s := by
  obtain ⟨⟨Q, hQ⟩, -, a, ha, hdue⟩ := h
  refine ⟨?_, not_pending ha (hdue rfl), hpages⟩
  intro q
  have hring := hQ.queued.queue q
  have hnone : ∀ page k, .own page k ∉ Q q := by
    intro page k hm
    rw [hQ.own] at hm
    obtain ⟨p, hp, -⟩ := hm
    cases hp
  rw [eq_map_other hnone, hQ.others, List.map_map] at hring
  exact hring

/-- What is left to do when the passes are over. -/
theorem Polling.finish (h : Polling c s) (r : Int × BitVec 32) :
    wp X (do
      Poll.setStatus c .running
      let s ← get
      Poll.pollFreewait s.pt.table
      pure r) (fun _ t => NoTrace c t) s := by
  rw [wp_bind]
  refine wp_mono (h.setStatus .running) fun _ s₂ h₂ => ?_
  simp only [wp_bind, wp_get, wp_pure]
  refine wp_mono (h₂.inv.pollFreewait h₂.filled) fun _ t ht => ?_
  obtain ⟨hinv, hpt, hreturned, -⟩ := ht
  apply hinv.noTrace
  rw [hpt]
  exact hreturned

theorem wp_doWait2 (h : Started c s) (hX : X .assert) (hX' : X .hang) (fuel : Nat)
    (fds : List (BitVec 32)) (timeout : BitVec 32) :
    wp X (doWait2 c fuel fds timeout) (fun _ t => NoTrace c t) s := by
  unfold doWait2 pollInitwait
  rw [wp_bind, wp_modify, wp_bind]
  exact wp_mono (h.polling.waitLoop hX hX' fds fuel _ timeout) fun r s₁ h₁ => h₁.finish r

/-! ## A call that returns -/

/-- The others keep the descriptors open, and from the turn `n` on no queue of a device is empty. -/
structure Filling (c : Call O) (n : Nat) : Prop where
  fdTable : ∀ k s, (c.others.run k s).fdTable = s.fdTable
  dev : ∀ k s, (c.others.run k s).dev = s.dev
  full : ∀ k s q, n ≤ k → (c.others.run k s).full q = true

/-- The turn `n` is over and there is something in every queue. -/
def Filled (n : Nat) (s : State O) : Prop := n < s.turns → ∀ q, s.full q = true

/-- What every step of the call leaves of the devices. -/
structure Later (n : Nat) (s t : State O) : Prop where
  fdTable : t.fdTable = s.fdTable
  dev : t.dev = s.dev
  turns : s.turns ≤ t.turns
  filled : Filled n s → Filled n t

section Later
variable {n : Nat}

omit [DecidableEq O] in
theorem Later.of_eq (hf : t.fdTable = s.fdTable) (hd : t.dev = s.dev) (ht : t.turns = s.turns)
    (hq : t.full = s.full) : Later n s t := by
  refine ⟨hf, hd, Nat.le_of_eq ht.symm, fun h hn q => ?_⟩
  rw [ht] at hn
  rw [hq]
  exact h hn q

instance : Std.Refl (Later (O := O) n) := ⟨fun _ => .of_eq rfl rfl rfl rfl⟩

instance : IsTrans (State O) (Later n) := ⟨fun _ _ _ h h' => ⟨h'.fdTable.trans h.fdTable,
  h'.dev.trans h.dev, Nat.le_trans h.turns h'.turns, h'.filled ∘ h.filled⟩⟩

theorem turn_later (hc : Filling c n) : Within (Later n) (turn c) := by
  refine within_modify fun s => ⟨hc.fdTable _ s, hc.dev _ s, Nat.le_succ _, fun _ hn q => ?_⟩
  exact hc.full _ s q (Nat.le_of_lt_succ hn)

omit [DecidableEq O] in
theorem onWait_later {α : Type} (m : Wait.M (Entry O) α) : Within (Later n) (onWait m) :=
  within_zoom fun _ _ => .of_eq rfl rfl rfl rfl

omit [DecidableEq O] in
theorem onTimer_later {α : Type} (m : Timer.M α) : Within (Later (O := O) n) (onTimer m) :=
  within_zoom fun _ _ => .of_eq rfl rfl rfl rfl

omit [DecidableEq O] in
theorem onMm_later {α : Type} (m : Mm.M α) : Within (Later (O := O) n) (onMm m) :=
  within_zoom fun _ _ => .of_eq rfl rfl rfl rfl

theorem newTable_later (hc : Filling c n) : Within (Later n) (newTable c) := by
  refine (turn_later hc).bind fun _ => (onMm_later _).bind fun a => within_ite (fun _ => ?_) fun _ => ?_
  · exact Within.bind (within_modify fun _ => .of_eq rfl rfl rfl rfl) fun _ =>
      (onWait_later _).bind fun _ => within_pure _
  · exact Within.bind (within_modify fun _ => .of_eq rfl rfl rfl rfl) fun _ => within_pure _

theorem addEntry_later (filp q : Nat) : Within (Later n) (addEntry c filp q) := by
  refine within_get.bind fun s => ?_
  cases s.pt.table with
  | nil => exact within_stop _
  | cons page rest =>
    exact Within.bind (within_modify fun _ => .of_eq rfl rfl rfl rfl) fun _ =>
      (onWait_later _).bind fun _ => onWait_later _

theorem pollwait_later (hc : Filling c n) (filp q : Nat) : Within (Later n) (pollwait c filp q) := by
  refine within_get.bind fun s => within_ite (fun _ => ?_) fun _ => addEntry_later filp q
  exact (newTable_later hc).bind fun got => within_ite (fun _ => addEntry_later filp q) fun _ =>
    within_pure ()

theorem scheduleTimeout_later (hc : Filling c n) (timeout : BitVec 32) :
    Within (Later n) (scheduleTimeout c timeout) := by
  refine within_ite (fun _ => (turn_later hc).bind fun _ => within_pure _) fun _ =>
    within_ite (fun _ => (onWait_later _).bind fun _ => within_pure _) fun _ => within_get.bind fun s => ?_
  exact (onTimer_later _).bind fun _ => (onTimer_later _).bind fun _ => (onTimer_later _).bind fun _ =>
    (turn_later hc).bind fun _ => (onTimer_later _).bind fun _ => within_get.bind fun _ => within_pure _

/-- A device with something in its queue is seen. -/
theorem Polling.pollQueue_hits (h : Polling c s) (hc : Filling c n) (hq : Filled n s)
    (queue file : Nat) (wait : Bool) :
    wp (fun _ => False) (Poll.pollQueue c queue file wait)
      (fun mask t => Polling c t ∧ Later n s t ∧ (n < s.turns → mask &&& pollinSet ≠ 0)) s := by
  unfold Poll.pollQueue
  rw [wp_bind]
  have hwait : wp (fun _ => False) (pollWait c file (some queue) wait)
      (fun _ t => Polling c t ∧ Later n s t) s := by
    unfold pollWait
    rw [wp_ite]
    refine ⟨fun _ => ?_, fun _ => ⟨h, Std.Refl.refl s⟩⟩
    obtain ⟨_, t, hrun, ht⟩ := ok_of_wp (h.pollwait file queue)
    exact (wp_of_ok hrun).mpr ⟨ht, pollwait_later hc file queue _ _ _ hrun⟩
  refine wp_mono hwait fun _ t ht => ?_
  rw [wp_bind, wp_get, wp_ite]
  refine ⟨fun _ => ⟨ht.1, ht.2, fun _ => by decide⟩, fun hempty => ⟨ht.1, ht.2, fun hn => ?_⟩⟩
  exact absurd (ht.2.filled hq (Nat.lt_of_lt_of_le hn ht.2.turns) queue) hempty

theorem Polling.sysPoll_hits (h : Polling c s) (hc : Filling c n) (hq : Filled n s) (file : Nat)
    (wait : Bool) (hdev : s.dev file ≠ .other) :
    wp (fun _ => False) (Poll.sysPoll c file wait)
      (fun mask t => Polling c t ∧ Later n s t ∧ (n < s.turns → mask &&& pollinSet ≠ 0)) s := by
  unfold Poll.sysPoll
  rw [wp_bind, wp_get]
  cases hf : s.dev file with
  | aux => exact h.pollQueue_hits hc hq 0 file wait
  | pcMouse => exact h.pollQueue_hits hc hq 1 file wait
  | pcKbd => exact h.pollQueue_hits hc hq 2 file wait
  | other => exact absurd hf hdev

/-- The descriptors are open files of devices with a poll function. -/
def Opened (s : State O) (fds : List (BitVec 32)) : Prop :=
  ∀ fd ∈ fds, (0 ≤ s.fdTable fd ∧ s.fdTable fd < 128) ∧ s.dev (s.fdTable fd).toNat ≠ .other

omit [DecidableEq O] in
theorem Opened.later {fds : List (BitVec 32)} (h : Opened s fds) (hl : Later n s t) : Opened t fds := by
  unfold Opened
  rw [hl.fdTable, hl.dev]
  exact h

/-- After the turn `n` one pass is enough. -/
theorem Polling.scan_hits (hc : Filling c n) (fds : List (BitVec 32)) (h : Polling c s) (hq : Filled n s)
    (ho : Opened s fds) (i : Nat) (wait : Bool) (retval : Int) :
    wp (fun _ => False) (Poll.scan c i fds wait retval) (fun r t => Polling c t ∧ Later n s t ∧
      (n < s.turns ∧ fds ≠ [] ∨ retval ≠ -1 → r ≠ -1)) s := by
  induction fds generalizing s i wait retval with
  | nil => exact ⟨h, Std.Refl.refl s, fun hr => hr.elim (fun hn => absurd rfl hn.2) id⟩
  | cons fd fds ih =>
    obtain ⟨hfd, hdev⟩ := ho fd List.mem_cons_self
    unfold Poll.scan getFile
    simp only [wp_bind, wp_get, wp_check, wp_pure]
    refine ⟨fun _ => ?_, fun hn => hn hfd⟩
    refine wp_mono (h.sysPoll_hits hc hq _ wait hdev) fun mask t ht => ?_
    obtain ⟨ht, hl, hmask⟩ := ht
    have ho' : Opened t fds := fun fd hm => ho.later hl fd (List.mem_cons_of_mem _ hm)
    rw [wp_ite]
    refine ⟨fun hhit => ?_, fun hmiss => ?_⟩
    · refine wp_mono (ih ht (hl.filled hq) ho' (i + 1) false i) fun r u hu => ?_
      exact ⟨hu.1, IsTrans.trans _ _ _ hl hu.2.1, fun _ => hu.2.2 (.inr (by omega))⟩
    · refine wp_mono (ih ht (hl.filled hq) ho' (i + 1) wait retval) fun r u hu => ?_
      refine ⟨hu.1, IsTrans.trans _ _ _ hl hu.2.1, fun hr => hu.2.2 (.inr ?_)⟩
      rcases hr with ⟨hn, -⟩ | hr
      · exact absurd (hmask hn) hmiss
      · exact hr

/-- Each pass begins with a turn, so some pass comes after the turn `n`. -/
theorem Polling.waitLoop_returns (hc : Filling c n) (fds : List (BitVec 32)) (hfds : fds ≠ []) (fuel : Nat)
    (h : Polling c s) (hq : Filled n s) (ho : Opened s fds) (hpos : 0 < fuel)
    (hn : n < s.turns + fuel) (wait : Bool) (timeout : BitVec 32) :
    wp (fun _ => False) (Poll.waitLoop c fds fuel wait timeout) (fun _ t => Polling c t) s := by
  induction fuel generalizing s wait timeout with
  | zero => exact absurd hpos (Nat.lt_irrefl 0)
  | succ fuel ih =>
    unfold Poll.waitLoop
    obtain ⟨_, s₁, hturn, h₁⟩ := ok_of_wp h.turn
    have hl₁ := turn_later hc s () s₁ hturn
    have hturns : s₁.turns = s.turns + 1 := by
      cases hturn
      rfl
    rw [wp_bind, wp_of_ok hturn, wp_bind]
    obtain ⟨_, s₂, hset, h₂⟩ := ok_of_wp (h₁.setStatus .waiting)
    have hl₂ : Later n s₁ s₂ := onWait_later _ s₁ () s₂ hset
    have hl := IsTrans.trans _ _ _ hl₁ hl₂
    have hle := hl₂.turns
    rw [wp_of_ok hset, wp_bind]
    refine wp_mono (h₂.scan_hits hc fds (hl.filled hq) (ho.later hl) 0 wait (-1)) fun r s₃ h₃ => ?_
    obtain ⟨h₃, hl₃, hr⟩ := h₃
    rw [wp_ite]
    refine ⟨fun _ => h₃, fun hmiss => ?_⟩
    have hnot : ¬ n < s₂.turns := fun hlt => hmiss (.inl (hr (.inl ⟨hlt, hfds⟩)))
    rw [wp_bind, wp_get, wp_ite]
    refine ⟨fun _ => h₃, fun _ => ?_⟩
    rw [wp_bind]
    obtain ⟨timeout', s₄, hsleep, h₄⟩ := ok_of_wp (h₃.scheduleTimeout timeout)
    have hl₄ := IsTrans.trans _ _ _ (IsTrans.trans _ _ _ hl hl₃)
      (scheduleTimeout_later hc timeout _ _ _ hsleep)
    have hle₃ := hl₃.turns
    have hle₄ := (scheduleTimeout_later hc timeout _ _ _ hsleep).turns
    rw [wp_of_ok hsleep]
    exact ih h₄ (hl₄.filled hq) (ho.later hl₄) (by omega) (by omega) false timeout'

/-- A call on open devices returns once there is something to read. -/
theorem doWait2_returns (h : Started c s) (hc : Filling c n) {fds : List (BitVec 32)} (hfds : fds ≠ [])
    (hq : Filled n s) (ho : Opened s fds) {fuel : Nat} (hpos : 0 < fuel) (hn : n < s.turns + fuel)
    (timeout : BitVec 32) : ∃ r t, doWait2 c fuel fds timeout s = .ok (r, t) := by
  apply returns_iff.mpr
  unfold doWait2 pollInitwait
  rw [wp_bind, wp_modify, wp_bind]
  refine wp_mono (h.polling.waitLoop_returns hc fds hfds fuel hq ho hpos hn _ timeout) fun r t ht => ?_
  exact wp_mono (ht.finish r) fun _ _ _ => trivial

end Later

/-- When `do_wait2` returns it leaves nothing behind, whatever the others do. It stops at a descriptor
that is not open, and goes on without end for want of passes only. -/
theorem polling_leaves_no_trace (h : Started c s) (fuel : Nat) (fds : List (BitVec 32))
    (timeout : BitVec 32) :
    (∀ r t, doWait2 c fuel fds timeout s = .ok (r, t) → NoTrace c t) ∧
      ∀ e, doWait2 c fuel fds timeout s = .error e → e = .assert ∨ e = .hang := by
  have hwp : wp (fun e => e = .assert ∨ e = .hang) (doWait2 c fuel fds timeout)
      (fun _ t => NoTrace c t) s := wp_doWait2 h (.inl rfl) (.inr rfl) fuel fds timeout
  constructor
  · intro r t hrun
    exact (wp_of_ok hrun).mp hwp
  · intro e hrun
    unfold wp at hwp
    rw [hrun] at hwp
    exact hwp

end Own

/-! ## Another waiter -/

def aloneState : State Nat where
  wait := ⟨⟨id, id⟩, fun _ => 0, fun _ => false, fun _ => true, fun _ => .ready⟩
  waiters _ := []
  timer := .init fun _ => 0
  mm := Mm.booted
  pt := ⟨0, []⟩
  fdTable _ := 0
  dev _ := .pcKbd
  full _ := false
  res := 0
  turns := 0

def aloneCall : Call Nat where
  current := 1
  timer := 0
  others := ⟨fun _ s => s, fun _ _ => .refl, fun _ _ h => h⟩

theorem alone_started : Started aloneCall aloneState := by
  refine ⟨⟨⟨[], ?_, ?_⟩, ?_, fun _ => rfl⟩, Mm.booted_paged, ⟨_, .init _, fun _ => rfl⟩, rfl⟩
  · intro i
    cases i with
    | none => exact ⟨⟨rfl, rfl⟩, by simp [Wait.nodesOf]⟩
    | some q => exact ⟨⟨rfl, rfl⟩, by simp [Wait.nodesOf, aloneState]⟩
  · intro i j hij x hi hj
    cases i <;> cases j <;> simp_all [Wait.nodesOf, Wait.headOf, aloneState]
  · intro q e he
    cases he

/-- Thread 3 waits for the keyboard. -/
def watchedState : State Nat :=
  { aloneState with
    wait := { aloneState.wait with
      links := aloneState.wait.links.add (.entry (.other 7)) (.head 2)
      task := Function.update (fun _ => 0) (.other 7) 3
      magic := Function.update (fun _ => false) (.other 7) true }
    waiters := Function.update (fun _ => []) 2 [7] }

/-- Keys arrive at the third turn, while the thread sleeps. -/
def typedCall : Call Nat where
  current := 1
  timer := 0
  others :=
    { run := fun k s => if 2 ≤ k then { s with full := fun _ => true } else s
      steps := fun k s => by
        split
        · exact .single (.device s s.fdTable s.dev (fun _ => true) s.res)
        · exact .refl
      idle := fun k s h => by
        split <;> exact h }

theorem typed_filling : Filling typedCall 2 := by
  constructor
  · intro k s
    simp only [typedCall]
    split <;> rfl
  · intro k s
    simp only [typedCall]
    split <;> rfl
  · intro k s q hk
    simp only [typedCall, if_pos hk]

theorem watched_started : Started typedCall watchedState := by
  obtain ⟨hq, hpaged, htimers, hidle⟩ := alone_started
  refine ⟨?_, hpaged, htimers, hidle⟩
  have hjoin : wp (fun _ => True) (do
      Wait.initWaitqueueEntry (Entry.other 7) 3
      Wait.addWaitQueue 2 (Entry.other 7))
      (fun _ w => Wait.Queued w (Function.update (fun _ => []) 2 [.other 7])) aloneState.wait := by
    rw [wp_bind]
    exact wp_mono hq.init fun _ _ hw => hw.1.add (fun _ => List.not_mem_nil) hw.2
  have hw := wp_ok hjoin (a := ()) (t := watchedState.wait) rfl
  have hqueues : (fun q => (watchedState.waiters q).map Entry.other : Nat → List (Entry Nat)) =
      Function.update (fun _ => []) 2 [.other 7] := by
    funext q
    by_cases hq : q = 2
    · subst hq
      rfl
    · rw [Function.update_of_ne hq]
      change (Function.update (fun _ => []) 2 [7] q).map Entry.other = []
      rw [Function.update_of_ne hq]
      rfl
  rw [hqueues]
  exact hw

theorem polling_leaves_no_trace_typed : ∃ r t,
    doWait2 typedCall 3 [0, 0] 5 watchedState = .ok (r, t) ∧ NoTrace typedCall t := by
  have hopen : Opened watchedState [0, 0] := fun _ _ => ⟨(by decide : (0 : Int) ≤ 0 ∧ (0 : Int) < 128), nofun⟩
  have hfuel : 2 < watchedState.turns + 3 := by decide
  obtain ⟨r, t, hrun⟩ := doWait2_returns watched_started typed_filling (by decide) nofun hopen
    (by decide) hfuel 5
  exact ⟨r, t, hrun, (polling_leaves_no_trace watched_started 3 [0, 0] 5).1 r t hrun⟩

end Trace

end Frog.Poll
