import Frog.Ipc.Msg
import Frog.Lib.Acyclic

/-!
# The deadlock check

The graph of waiting senders never has a cycle, so `detect_cycle` ends; it finds a cycle exactly
when the new edge would close one.
-/

namespace Frog.Ipc

set_option autoImplicit false
open Prog Relation

variable {s : State} {pids : List Pid}

/-- `p` waits in a send to `q`. -/
def Edge (s : State) (p q : Pid) : Prop := (s.tcb p).sending = true ∧ (s.tcb p).pSendto = q

structure Sound (pids : List Pid) (s : State) : Prop where
  all_eq : s.all = pids
  acyclic : Acyclic (Edge s)
  live : ∀ p q, Edge s p q → q ∈ s.all

theorem Sound.init (pids : List Pid) : Sound pids (State.init pids) := by
  have hno : ∀ p q, ¬ Edge (State.init pids) p q := fun p q he => Bool.false_ne_true he.1
  exact ⟨rfl, fun p => not_transGen_of_sink (hno p), fun p q he => absurd he (hno p q)⟩

/-! ## The walk -/

theorem wp_detectWalk (h : Sound pids s) {src : Pid} (n : Nat) {p : Pid} (visited : List Pid)
    (hp : p ∈ s.all) (hv : ∀ v ∈ visited, v ∈ s.all ∧ TransGen (Edge s) v p)
    (hn : visited.Nodup) (hlen : s.all.length < n + visited.length) :
    wp (fun _ => False) (detectWalk src n p)
      (fun b t => t = s ∧ (b = true ↔ TransGen (Edge s) p src)) s := by
  induction n generalizing p visited with
  | zero =>
    have := length_le_of_nodup hn fun v hvm => (hv v hvm).1
    omega
  | succ n ih =>
    simp only [detectWalk, wp_bind, wp_pid2proc, wp_ite, wp_pure, true_and]
    refine ⟨fun _ => ⟨fun hs => ?_, fun hs => ?_⟩, fun hno => hno hp⟩
    · have he : Edge s p (s.tcb p).pSendto := ⟨hs, rfl⟩
      have hu : ∀ z, Edge s p z → z = (s.tcb p).pSendto := fun z hz => hz.2.symm
      refine ⟨fun hd => by simp [transGen_of_unique he hu, hd], fun hd => ?_⟩
      -- the nodes passed so far are different, since none of them is met again
      have hfresh : p ∉ visited := fun hm => h.acyclic p (hv p hm).2
      have hv' : ∀ v ∈ p :: visited, v ∈ s.all ∧ TransGen (Edge s) v (s.tcb p).pSendto := by
        intro v hvm
        rcases List.mem_cons.mp hvm with rfl | hvm
        · exact ⟨hp, .single he⟩
        · exact ⟨(hv v hvm).1, (hv v hvm).2.tail he⟩
      have hn' := List.nodup_cons.mpr ⟨hfresh, hn⟩
      refine wp_mono (ih (p :: visited) (h.live _ _ he) hv' hn' (by simp; omega)) ?_
      intro b t ht
      rw [transGen_of_unique he hu]
      simpa [hd] using ht
    · have hsink : ∀ z, ¬ Edge s p z := fun z hz => hs hz.1
      simp [not_transGen_of_sink hsink]

theorem wp_detectCycle (h : Sound pids s) {src dest : Pid} (hd : dest ∈ s.all) :
    wp (fun _ => False) (detectCycle src dest)
      (fun b t => t = s ∧ (b = true ↔ TransGen (Edge s) dest src)) s := by
  simp only [detectCycle, wp_bind, wp_get]
  exact wp_detectWalk h _ [] hd (by simp) (by simp) (by simp)

/-! ## What keeps the graph sound -/

/-- A TCB may stop sending; no edge appears. -/
theorem Sound.setTcb (h : Sound pids s) {p : Pid} {t : Tcb}
    (ht : t.sending = true → (s.tcb p).sending = true ∧ t.pSendto = (s.tcb p).pSendto) :
    Sound pids (s.setTcb p t) := by
  have he : ∀ a b, Edge (s.setTcb p t) a b → Edge s a b := by
    rintro a b ⟨h1, h2⟩
    by_cases ha : a = p
    · subst ha
      rw [State.setTcb_self] at h1 h2
      exact ⟨(ht h1).1, (ht h1).2.symm.trans h2⟩
    · rw [State.setTcb_of_ne ha] at h1 h2
      exact ⟨h1, h2⟩
  exact ⟨h.all_eq, h.acyclic.mono he, fun a b hab => h.live a b (he a b hab)⟩

/-- A new edge from which the sender cannot be reached. -/
theorem Sound.send (h : Sound pids s) {sender dest : Pid} {t : Tcb} (hd : dest ∈ s.all)
    (hne : sender ≠ dest) (hc : ¬ TransGen (Edge s) dest sender) (ht : t.pSendto = dest) :
    Sound pids (s.setTcb sender t) := by
  have he : ∀ a b, Edge (s.setTcb sender t) a b → addEdge (Edge s) sender dest a b := by
    rintro a b ⟨h1, h2⟩
    by_cases ha : a = sender
    · subst ha
      rw [State.setTcb_self] at h2
      exact .inr ⟨rfl, h2.symm.trans ht⟩
    · rw [State.setTcb_of_ne ha] at h1 h2
      exact .inl ⟨h1, h2⟩
  have hr : ¬ ReflTransGen (Edge s) dest sender := fun hr =>
    (reflTransGen_iff_eq_or_transGen.mp hr).elim hne hc
  refine ⟨h.all_eq, (h.acyclic.addEdge_iff.mpr hr).mono he, fun a b hab => ?_⟩
  rcases he a b hab with hab | ⟨-, rfl⟩
  · exact h.live a b hab
  · exact hd

theorem Sound.relink (h : Sound pids s) {t : State} (hr : Relinked s t) : Sound pids t := by
  have he : ∀ a b, Edge t a b → Edge s a b := by
    rintro a b ⟨h1, h2⟩
    exact ⟨(congrArg Tcb.sending (hr.tcb_eq a)).symm.trans h1,
      (congrArg Tcb.pSendto (hr.tcb_eq a)).symm.trans h2⟩
  exact ⟨hr.all_eq.trans h.all_eq, h.acyclic.mono he,
    fun a b hab => hr.all_eq ▸ h.live a b (he a b hab)⟩

theorem Sound.setCall (h : Sound pids s) {p : Pid} {c : Call} : Sound pids (s.setCall p c) :=
  ⟨h.all_eq, h.acyclic, h.live⟩

/-! ## Every call does -/

variable {p q : Pid} {msg : Message}

/-- With every reason to stop allowed, only the steps that are taken count. -/
abbrev Keeps (pids : List Pid) {α : Type} (m : M α) : Prop :=
  ∀ s, Sound pids s → wp (fun _ => True) m (fun _ t => Sound pids t) s

theorem keeps_threadUnblock : Keeps pids (threadUnblock p) := by
  intro s h
  simp only [wp_threadUnblock, implies_true, and_true]
  exact fun _ => h.setTcb fun ht => ⟨ht, rfl⟩

theorem keeps_threadAuthBlock : Keeps pids (threadAuthBlock p) := by
  intro s h
  exact h.setTcb fun ht => ⟨ht, rfl⟩

theorem keeps_enqueue : Keeps pids (enqueue p q) := by
  intro s h
  simp only [enqueue, wp_bind, wp_get]
  split
  · simp only [wp_bind, wp_need, wp_setNext, implies_true, and_true]
    exact fun last _ => h.relink (relinked_setNext.trans relinked_setNext)
  · exact h.relink (relinked_setHead.trans relinked_setNext)

theorem keeps_msgSend (hne : p ≠ q) : Keeps pids (msgSend p q msg) := by
  intro s h
  simp only [msgSend, wp_bind, wp_pid2proc, implies_true, and_true]
  intro hq
  refine wp_mono (wp_allow (wp_detectCycle h hq) fun _ => False.elim) ?_
  rintro cycle t ⟨ht, hcycle⟩
  subst t
  simp only [wp_check, wp_ite, wp_bind, wp_tcbAt, wp_setTcb, implies_true, and_true]
  intro hno
  refine ⟨fun _ _ => ?_, fun _ _ => ?_⟩
  · exact keeps_threadUnblock _ (h.setTcb fun ht => ⟨ht, rfl⟩)
  · have hc : ¬ TransGen (Edge s) q p := fun hc => by simp [hcycle.mpr hc] at hno
    exact wp_mono (keeps_enqueue _ (h.send hq hne hc rfl)) fun _ t ht => keeps_threadAuthBlock t ht

theorem keeps_dequeue {prev : Option Pid} : Keeps pids (dequeue p q prev) := by
  intro s h
  simp only [dequeue, wp_bind, wp_get, wp_ite, wp_check, wp_setHead, wp_setNext, wp_need,
    implies_true, and_true]
  exact ⟨fun _ _ => h.relink (relinked_setHead.trans relinked_setNext),
    fun _ l _ => h.relink (relinked_setNext.trans relinked_setNext)⟩

/-- The search for a sender changes nothing. -/
theorem wp_findSender_state : wp (fun _ => True) (findSender p q) (fun _ t => t = s) s := by
  simp [findSender]

theorem keeps_msgReceive : Keeps pids (msgReceive p q msg) := by
  intro s h
  simp only [msgReceive, wp_bind, wp_tcbAt, wp_ite, wp_setTcb, wp_pure]
  refine ⟨fun _ => h.setTcb fun ht => ⟨ht, rfl⟩, fun _ => ?_⟩
  refine wp_mono wp_findSender_state ?_
  rintro (_ | ⟨r, prev⟩) t ht <;> subst t
  · simp only [wp_bind, wp_setTcb, wp_threadAuthBlock, wp_pure]
    exact keeps_threadAuthBlock _ (h.setTcb fun ht => ⟨ht, rfl⟩)
  · simp only [wp_bind]
    refine wp_mono (keeps_dequeue s h) fun _ t ht => ?_
    simp only [wp_tcbAt, wp_check, wp_setTcb, wp_pure, implies_true, and_true]
    exact fun _ => keeps_threadUnblock _ (ht.setTcb fun ht => by cases ht)

theorem keeps_notifyIntr : Keeps pids (notifyIntr p) := by
  intro s h
  simp only [notifyIntr, wp_bind, wp_pid2proc, wp_ite, wp_setTcb, wp_check, implies_true, and_true]
  refine fun _ => ⟨fun _ _ => ?_, fun _ => h.setTcb fun ht => ⟨ht, rfl⟩⟩
  exact wp_mono (keeps_threadUnblock _ (h.setTcb fun ht => ⟨ht, rfl⟩)) fun _ t ht _ => ht

theorem keeps_doEvent (e : Event) : Keeps pids (doEvent e) := by
  intro s h
  cases e with
  | send p q msg =>
    simp only [doEvent, checkTarget, wp_bind, wp_check, wp_setCall, wp_tcbAt, wp_pure, implies_true,
      and_true]
    exact fun _ hne => wp_mono (keeps_msgSend hne s h) fun _ t ht => ht.setCall
  | receive p q msg =>
    simp only [doEvent, checkTarget, wp_bind, wp_check, wp_setCall, wp_pure, implies_true, and_true]
    exact fun _ _ => wp_mono (keeps_msgReceive s h) fun _ t ht => ht.setCall
  | resume p => exact h.setCall
  | notify p =>
    simp only [doEvent, wp_bind, wp_pure]
    exact keeps_notifyIntr s h

theorem Sound.run {t : State} {as : List (Event × Option Message)}
    (h : Run Step (State.init pids) as t) : Sound pids t := by
  refine h.invariant (fun s a t hs hst => ?_) (.init pids)
  have ht := wp_ok (keeps_doEvent a.1 s hs) hst.2
  exact ht

/-- In every reachable state the waiting senders form no cycle, and `detect_cycle` returns whether
one more edge would close one. -/
theorem detectCycle_exact {t : State} {as : List (Event × Option Message)}
    (h : Run Step (State.init pids) as t) :
    Acyclic (Edge t) ∧ ∀ src dest, dest ∈ pids → src ≠ dest →
      ∃ b, detectCycle src dest t = .ok (b, t) ∧
        (b = true ↔ ¬ Acyclic (addEdge (Edge t) src dest)) := by
  have hs := Sound.run h
  refine ⟨hs.acyclic, fun src dest hd hne => ?_⟩
  obtain ⟨b, _, hrun, rfl, hb⟩ := ok_of_wp (@wp_detectCycle _ _ hs src _ (hs.all_eq ▸ hd))
  refine ⟨b, hrun, ?_⟩
  rw [hb, hs.acyclic.addEdge_iff, not_not, reflTransGen_iff_eq_or_transGen]
  exact ⟨.inr, fun h => h.resolve_left hne⟩

theorem detectCycle_exact_two_senders :
    ∃ t, Run Step (State.init [1, 2]) [(.send 1 2 .zero, none)] t ∧ Edge t 1 2 ∧
      Acyclic (Edge t) ∧ ∃ b, detectCycle 2 1 t = .ok (b, t) ∧
        (b = true ↔ ¬ Acyclic (addEdge (Edge t) 2 1)) := by
  obtain ⟨t, hrun, he⟩ :
      ∃ t, Run Step (State.init [1, 2]) [(.send 1 2 .zero, none)] t ∧ Edge t 1 2 :=
    ⟨_, .single ⟨by simp [Enabled, State.init, Tcb.new], rfl⟩, rfl, rfl⟩
  obtain ⟨hc, hd⟩ := detectCycle_exact hrun
  exact ⟨t, hrun, he, hc, hd 2 1 (by simp) (by decide)⟩

end Frog.Ipc
