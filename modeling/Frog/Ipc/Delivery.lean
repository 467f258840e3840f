import Frog.Ipc.Deadlock
import Frog.Ipc.Mailbox

/-!
# The calls do what the mailboxes do

The linked queues, flags and messages of the TCBs stand for the mailboxes, and every call changes
both in the same way, as long as no receive meets a pending notification.
-/

namespace Frog.Ipc

set_option autoImplicit false
open Prog Relation

variable {s t : State} {a b : Mailboxes} {p q : Pid} {pids : List Pid}

/-! ## The queues as lists -/

/-- `q`'s sending queue runs through `l`. -/
def QueueIs (s : State) (q : Pid) (l : List Pid) : Prop := Chain s.next (s.head q) l

theorem queueIs_setTcb {r : Tcb} {l : List Pid} (hl : r.pSendingQueue = (s.tcb p).pSendingQueue ∧
    r.pNextSending = (s.tcb p).pNextSending) : QueueIs (s.setTcb p r) q l ↔ QueueIs s q l := by
  unfold QueueIs
  rw [next_setTcb, head_setTcb, hl.1, hl.2]
  rw [Function.update_eq_self_iff.mpr (show _ = s.next p from rfl),
    Function.update_eq_self_iff.mpr (show _ = s.head p from rfl)]

/-- The queues other than `q`'s that avoid the elements of `l` stay as they are. -/
def OthersKept (s t : State) (q : Pid) (l : List Pid) : Prop :=
  ∀ q' l', q' ≠ q → QueueIs s q' l' → (∀ x ∈ l', x ∉ l) → QueueIs t q' l'

theorem wp_enqueue {l : List Pid} (hc : QueueIs s q l) (hn : l.Nodup) (hall : ∀ x ∈ l, x ∈ s.all)
    (hp : p ∉ l) :
    wp (fun _ => False) (enqueue p q)
      (fun _ t => Relinked s t ∧ QueueIs t q (l ++ [p]) ∧ OthersKept s t q (l ++ [p])) s := by
  have hlen : l.length ≤ s.all.length := length_le_of_nodup hn hall
  simp only [enqueue, wp_bind, wp_get]
  unfold OthersKept QueueIs at *
  split
  · rename_i x hx
    rw [hx] at hc
    obtain ⟨z, l0, rfl⟩ : ∃ z l0, l = l0 ++ [z] := by
      obtain ⟨ys, rfl, -⟩ := hc.eq_cons
      exact ⟨_, _, (List.dropLast_append_getLast (List.cons_ne_nil x ys)).symm⟩
    have hend : Chain.walkEnd s.next (s.all.length + 1) x = some z := by
      rw [Chain.walkEnd_eq hc (by omega), List.getLast?_concat]
    simp only [wp_bind, hend, wp_need, Option.some.injEq, forall_eq', reduceCtorEq, false_implies,
      and_true, wp_setNext, next_setNext, head_setNext, hx]
    refine ⟨relinked_setNext.trans relinked_setNext, hc.append hn hp, fun q' l' hq hq' hl' => ?_⟩
    refine hq'.congr fun y hy => ?_
    have hyp : y ≠ p := fun he => hl' y hy (by simp [he])
    have hyz : y ≠ z := fun he => hl' y hy (by simp [he])
    rw [Function.update_of_ne hyp, Function.update_of_ne hyz]
  · rename_i hx
    rw [hx] at hc
    obtain rfl := hc.eq_nil
    simp only [wp_bind, wp_setHead, wp_setNext, next_setNext, next_setHead, head_setNext,
      head_setHead, Function.update_self]
    refine ⟨relinked_setHead.trans relinked_setNext, Chain.single p, fun q' l' hq hq' hl' => ?_⟩
    rw [Function.update_of_ne hq]
    refine hq'.congr fun y hy => ?_
    have hyp : y ≠ p := fun he => hl' y hy (by simp [he])
    rw [Function.update_of_ne hyp]

theorem wp_dequeue {l l' : List Pid} (hc : QueueIs s q (l ++ p :: l'))
    (hn : (l ++ p :: l').Nodup) :
    wp (fun _ => False) (dequeue q p l.getLast?)
      (fun _ t => Relinked s t ∧ QueueIs t q (l ++ l') ∧ OthersKept s t q (l ++ p :: l')) s := by
  simp only [dequeue, wp_bind, wp_get, wp_ite, wp_check, wp_setHead, wp_setNext, wp_need, imp_false]
  unfold OthersKept QueueIs at *
  rcases List.eq_nil_or_concat l with rfl | ⟨l0, z, rfl⟩
  · have hhead : s.head q = some p := hc.1
    have hp : p ∉ l' := (List.nodup_cons.mp hn).1
    refine ⟨fun _ => ⟨fun _ => ?_, by simp⟩, fun hno => absurd hhead hno⟩
    simp only [next_setNext, next_setHead, head_setNext, head_setHead, Function.update_self,
      List.nil_append] at hc ⊢
    refine ⟨relinked_setHead.trans relinked_setNext, ?_, fun q' l1 hq hq' hl1 => ?_⟩
    · refine hc.2.congr fun y hy => ?_
      have hyp : y ≠ p := fun he => hp (he ▸ hy)
      rw [Function.update_of_ne hyp]
    · rw [Function.update_of_ne hq]
      refine hq'.congr fun y hy => ?_
      have hyp : y ≠ p := fun he => hl1 y hy (by simp [he])
      rw [Function.update_of_ne hyp]
  · rw [List.concat_eq_append] at *
    have hhead : s.head q ≠ some p := by
      rw [hc.head_eq]
      rcases l0 with _ | ⟨y, l0⟩
      · simp only [List.nil_append, List.cons_append, List.nodup_cons, List.mem_cons, not_or] at hn
        simpa using hn.1.1
      · simp only [List.cons_append, List.nodup_cons] at hn
        simp only [List.cons_append, List.head?_cons, ne_eq, Option.some.injEq]
        exact fun he => hn.1 (by simp [he])
    rw [List.getLast?_concat]
    refine ⟨fun h => absurd h hhead, fun _ => ⟨fun w hw => ?_, by simp⟩⟩
    obtain rfl : z = w := Option.some.inj hw
    simp only [next_setNext, head_setNext]
    rw [List.append_assoc] at hc hn
    refine ⟨relinked_setNext.trans relinked_setNext, ?_, fun q' l1 hq hq' hl1 => ?_⟩
    · rw [List.append_assoc]
      exact hc.unlink hn
    · refine hq'.congr fun y hy => ?_
      have hyp : y ≠ p := fun he => hl1 y hy (by simp [he])
      have hyz : y ≠ z := fun he => hl1 y hy (by simp [he])
      rw [Function.update_of_ne hyp, Function.update_of_ne hyz]

/-! ## TCBs and mailboxes -/

theorem noTask_ne_anyTask : noTask ≠ anyTask := by decide

theorem noTask_ne_intrTask : noTask ≠ intrTask := by decide

/-- The flags of a process between two steps. -/
structure TcbOk (p : Pid) (t : Tcb) (c : Call) : Prop where
  apart : t.sending = true → t.receiving = false
  blocked : t.blocked = true ↔ t.sending = true ∨ t.receiving = true
  send : t.sending = true → c = .send
  receive : t.receiving = true → c = .receive
  any : t.pRecvfrom = anyTask → t.receiving = true
  intr : t.pRecvfrom ≠ intrTask
  source : t.sending = true ∨ t.receiving = true → t.pMessage.mSource = p
  unnoted : t.receiving = true → t.pRecvfrom = anyTask → t.pIntrPresent = false

/-- A process that is not blocked. -/
theorem TcbOk.awake {r : Tcb} {c : Call} (hs : r.sending = false) (hr : r.receiving = false)
    (hb : r.blocked = false) (ha : r.pRecvfrom ≠ anyTask) (hi : r.pRecvfrom ≠ intrTask) :
    TcbOk p r c := by
  constructor <;> simp_all

def waitOf (t : Tcb) : Option (Pid × Message) :=
  if t.receiving then some (t.pRecvfrom, t.pMessage) else none

def boxOf (t : Tcb) (c : Call) : Option Message :=
  if c = .receive ∧ t.blocked = false then some t.pMessage else none

structure Locals (s : State) (a : Mailboxes) : Prop where
  ok : ∀ p ∈ s.all, TcbOk p (s.tcb p) (s.call p)
  waiting : ∀ p ∈ s.all, a.waiting p = waitOf (s.tcb p)
  box : ∀ p ∈ s.all, a.box p = boxOf (s.tcb p) (s.call p)
  noted : ∀ p ∈ s.all, a.noted p = (s.tcb p).pIntrPresent

structure Queues (s : State) (a : Mailboxes) : Prop where
  chain : ∀ q ∈ s.all, QueueIs s q ((a.queue q).map Prod.fst)
  nodup : ∀ q, ((a.queue q).map Prod.fst).Nodup
  queued : ∀ q ∈ s.all, ∀ x, x ∈ a.queue q ↔
    x.1 ∈ s.all ∧ Edge s x.1 q ∧ (s.tcb x.1).pMessage = x.2
  dead : ∀ q, q ∉ s.all → a.queue q = []

structure Agrees (pids : List Pid) (s : State) (a : Mailboxes) : Prop where
  sound : Sound pids s
  locals : Locals s a
  queues : Queues s a

/-- Another TCB, and another place in its calls, for one process. -/
theorem Locals.put (h : Locals s a) {r : Tcb} {c : Call} (hok : TcbOk p r c)
    (hw : b.waiting = Function.update a.waiting p (waitOf r))
    (hb : b.box = Function.update a.box p (boxOf r c))
    (hn : b.noted = Function.update a.noted p r.pIntrPresent) :
    Locals ((s.setTcb p r).setCall p c) b := by
  refine ⟨fun q hq => ?_, fun q hq => ?_, fun q hq => ?_, fun q hq => ?_⟩ <;> by_cases he : q = p
  · subst he
    simpa using hok
  · simpa [he] using h.ok q hq
  · simp [he, hw]
  · simpa [he, hw] using h.waiting q hq
  · simp [he, hb]
  · simpa [he, hb] using h.box q hq
  · simp [he, hn]
  · simpa [he, hn] using h.noted q hq

theorem Locals.putTcb (h : Locals s a) {r : Tcb} (hok : TcbOk p r (s.call p))
    (hw : b.waiting = Function.update a.waiting p (waitOf r))
    (hb : b.box = Function.update a.box p (boxOf r (s.call p)))
    (hn : b.noted = Function.update a.noted p r.pIntrPresent) : Locals (s.setTcb p r) b := by
  have hput := h.put hok hw hb hn
  have hsame : (s.setTcb p r).call p = s.call p := rfl
  rwa [State.setCall_same hsame] at hput

theorem Locals.relink (h : Locals s a) (hr : Relinked s t) : Locals t a := by
  have hfield {β : Type} (f : Tcb → β) (q : Pid)
      (hf : ∀ t : Tcb, f { t with pSendingQueue := none, pNextSending := none } = f t) :
      f (t.tcb q) = f (s.tcb q) := by
    rw [← hf, hr.tcb_eq q, hf]
  have hok (q : Pid) (c : Call) : TcbOk q (s.tcb q) c → TcbOk q (t.tcb q) c := by
    intro ⟨h1, h2, h3, h4, h5, h6, h7, h8⟩
    rw [← hfield Tcb.sending q fun _ => rfl] at h1 h2 h3 h7
    rw [← hfield Tcb.receiving q fun _ => rfl] at h1 h2 h4 h5 h7 h8
    rw [← hfield Tcb.blocked q fun _ => rfl] at h2
    rw [← hfield Tcb.pRecvfrom q fun _ => rfl] at h5 h6 h8
    rw [← hfield Tcb.pMessage q fun _ => rfl] at h7
    rw [← hfield Tcb.pIntrPresent q fun _ => rfl] at h8
    exact ⟨h1, h2, h3, h4, h5, h6, h7, h8⟩
  refine ⟨fun q hq => ?_, fun q hq => ?_, fun q hq => ?_, fun q hq => ?_⟩
  · rw [hr.call_eq]
    exact hok q _ (h.ok q (hr.all_eq ▸ hq))
  · rw [hfield waitOf q fun _ => rfl]
    exact h.waiting q (hr.all_eq ▸ hq)
  · rw [hr.call_eq, hfield (fun t => boxOf t (s.call q)) q fun _ => rfl]
    exact h.box q (hr.all_eq ▸ hq)
  · rw [hfield Tcb.pIntrPresent q fun _ => rfl]
    exact h.noted q (hr.all_eq ▸ hq)

/-- A TCB that keeps its links and what it sends keeps the queues. -/
theorem Queues.put (h : Queues s a) {r : Tcb}
    (hl : r.pSendingQueue = (s.tcb p).pSendingQueue ∧ r.pNextSending = (s.tcb p).pNextSending)
    (hs : r.sending = (s.tcb p).sending)
    (hm : r.sending = true → r.pSendto = (s.tcb p).pSendto ∧ r.pMessage = (s.tcb p).pMessage)
    (hq : b.queue = a.queue) : Queues (s.setTcb p r) b := by
  refine ⟨fun q hqa => ?_, fun q => hq ▸ h.nodup q, fun q hqa x => ?_, fun q hqa => hq ▸ h.dead q hqa⟩
  · rw [queueIs_setTcb hl, hq]
    exact h.chain q hqa
  · rw [hq, h.queued q hqa x]
    refine and_congr_right fun _ => ?_
    unfold Edge
    by_cases hx : x.1 = p
    · rw [hx]
      simp only [State.setTcb_self, hs]
      constructor
      · rintro ⟨⟨h1, h2⟩, h3⟩
        obtain ⟨h4, h5⟩ := hm (hs.trans h1)
        exact ⟨⟨h1, h4.trans h2⟩, h5.trans h3⟩
      · rintro ⟨⟨h1, h2⟩, h3⟩
        obtain ⟨h4, h5⟩ := hm (hs.trans h1)
        exact ⟨⟨h1, h4.symm.trans h2⟩, h5.symm.trans h3⟩
    · simp [hx]

theorem Queues.setCall (h : Queues s a) {c : Call} : Queues (s.setCall p c) a :=
  ⟨h.chain, h.nodup, h.queued, h.dead⟩

/-- A process stands in the queue of one other process only. -/
theorem Queues.not_mem_other (h : Queues s a) {q' : Pid} {x : Pid × Message} (hq : q ∈ s.all)
    (hq' : q' ∈ s.all) (hne : q' ≠ q) (hx : x ∈ a.queue q') : x.1 ∉ (a.queue q).map Prod.fst := by
  intro hm
  obtain ⟨y, hy, hyx⟩ := List.mem_map.mp hm
  have h1 := ((h.queued q' hq' x).mp hx).2.1.2
  have h2 := ((h.queued q hq y).mp hy).2.1.2
  rw [hyx] at h2
  exact hne (h1.symm.trans h2)

theorem edge_relink (hr : Relinked s t) (x y : Pid) : Edge t x y ↔ Edge s x y := by
  have h1 : (t.tcb x).sending = (s.tcb x).sending := (congrArg Tcb.sending (hr.tcb_eq x) :)
  have h2 : (t.tcb x).pSendto = (s.tcb x).pSendto := (congrArg Tcb.pSendto (hr.tcb_eq x) :)
  rw [Edge, Edge, h1, h2]

/-- The sender joins the queue once its TCB says that it sends. -/
theorem Queues.push (h : Queues s a) {r : Tcb} (hr : Relinked (s.setTcb p r) t) (hp : p ∈ s.all)
    (hq : q ∈ s.all)
    (hout : ∀ q, ∀ x ∈ a.queue q, x.1 ≠ p)
    (hl : r.pSendingQueue = (s.tcb p).pSendingQueue ∧ r.pNextSending = (s.tcb p).pNextSending)
    (hs : r.sending = true) (hd : r.pSendto = q)
    (hc : QueueIs t q ((a.queue q).map Prod.fst ++ [p]))
    (ho : OthersKept (s.setTcb p r) t q ((a.queue q).map Prod.fst ++ [p])) :
    Queues t (a.setQueue q (a.queue q ++ [(p, r.pMessage)])) := by
  have hpq : p ∉ (a.queue q).map Prod.fst := fun hm => by
    obtain ⟨x, hx, hxp⟩ := List.mem_map.mp hm
    exact hout q x hx hxp
  have hall : t.all = s.all := hr.all_eq
  refine ⟨fun q' hq' => ?_, fun q' => ?_, fun q' hq' x => ?_, fun q' hq' => ?_⟩
  · by_cases he : q' = q
    · subst he
      simpa using hc
    · rw [Mailboxes.setQueue_of_ne he]
      refine ho q' _ he ((queueIs_setTcb hl).mpr (h.chain q' (hall ▸ hq'))) fun y hy hm => ?_
      obtain ⟨x, hx, rfl⟩ := List.mem_map.mp hy
      rcases List.mem_append.mp hm with hm | hm
      · exact h.not_mem_other hq (hall ▸ hq') he hx hm
      · exact hout q' x hx (List.mem_singleton.mp hm)
  · by_cases he : q' = q
    · subst he
      rw [Mailboxes.setQueue_self, List.map_append, List.nodup_append]
      refine ⟨h.nodup q', by simp, fun y hy z hz => ?_⟩
      rw [List.map_cons, List.map_nil, List.mem_singleton] at hz
      have hzp : z = p := hz
      exact fun hyz => hpq (hzp ▸ hyz ▸ hy)
    · rw [Mailboxes.setQueue_of_ne he]
      exact h.nodup q'
  · have hm : (t.tcb x.1).pMessage = ((s.setTcb p r).tcb x.1).pMessage :=
      (congrArg Tcb.pMessage (hr.tcb_eq x.1) :)
    rw [edge_relink hr, hm, hall]
    rw [hall] at hq'
    have hold := h.queued q' hq' x
    by_cases hx : x.1 = p
    · have hno : x ∉ a.queue q' := fun hm => hout q' x hm hx
      have hedge : Edge (s.setTcb p r) x.1 q' ↔ q = q' := by
        simp [Edge, hx, hs, hd]
      rw [hedge]
      by_cases he : q' = q
      · subst he
        rw [Mailboxes.setQueue_self]
        simp only [List.mem_append, hno, List.mem_singleton, false_or]
        constructor
        · rintro rfl
          exact ⟨hp, trivial, by simp⟩
        · rintro ⟨-, -, hxm⟩
          refine Prod.ext hx ?_
          rw [← hxm, hx, State.setTcb_self]
      · rw [Mailboxes.setQueue_of_ne he]
        simp [hno, Ne.symm he]
    · have hedge : Edge (s.setTcb p r) x.1 q' ↔ Edge s x.1 q' := by
        simp [Edge, hx]
      rw [hedge, State.setTcb_of_ne hx, ← hold]
      by_cases he : q' = q
      · subst he
        have hne : x ≠ (p, r.pMessage) := fun hxe => hx (by rw [hxe])
        simp [hne]
      · rw [Mailboxes.setQueue_of_ne he]
  · rw [hall] at hq'
    have he : q' ≠ q := fun he => hq' (he ▸ hq)
    rw [Mailboxes.setQueue_of_ne he]
    exact h.dead q' hq'

/-- The sender that was unlinked stops sending. -/
theorem Queues.take (h : Queues s a) {x : Pid × Message} {as bs : List (Pid × Message)}
    (hq : q ∈ s.all) (ha : a.queue q = as ++ x :: bs) (hr : Relinked s t)
    (hc : QueueIs t q ((as ++ bs).map Prod.fst))
    (ho : OthersKept s t q ((a.queue q).map Prod.fst)) {r : Tcb}
    (hl : r.pSendingQueue = (t.tcb x.1).pSendingQueue ∧ r.pNextSending = (t.tcb x.1).pNextSending)
    (hs : r.sending = false) :
    Queues (t.setTcb x.1 r) (a.setQueue q (as ++ bs)) := by
  have hall : t.all = s.all := hr.all_eq
  have hn := h.nodup q
  have hxq : Edge s x.1 q := ((h.queued q hq x).mp (by rw [ha]; simp)).2.1
  refine ⟨fun q' hq' => ?_, fun q' => ?_, fun q' hq' y => ?_, fun q' hq' => ?_⟩
  · by_cases he : q' = q
    · subst he
      rwa [Mailboxes.setQueue_self, queueIs_setTcb hl]
    · rw [Mailboxes.setQueue_of_ne he]
      rw [queueIs_setTcb hl]
      refine ho q' _ he (h.chain q' (hall ▸ hq')) fun z hz => ?_
      obtain ⟨y, hy, rfl⟩ := List.mem_map.mp hz
      exact h.not_mem_other hq (hall ▸ hq') he hy
  · by_cases he : q' = q
    · subst he
      rw [Mailboxes.setQueue_self]
      rw [ha] at hn
      refine hn.sublist ?_
      exact (List.Sublist.append_left (List.sublist_cons_self x bs) as).map _
    · rw [Mailboxes.setQueue_of_ne he]
      exact h.nodup q'
  · have hq'' : q' ∈ s.all := hall ▸ hq'
    have hold := h.queued q' hq'' y
    have hm : (t.tcb y.1).pMessage = (s.tcb y.1).pMessage :=
      (congrArg Tcb.pMessage (hr.tcb_eq y.1) :)
    by_cases hy : y.1 = x.1
    · have hno : ¬ Edge (t.setTcb x.1 r) y.1 q' := by
        rintro ⟨h1, -⟩
        rw [hy, State.setTcb_self, hs] at h1
        cases h1
      have hout : y ∉ (a.setQueue q (as ++ bs)).queue q' := by
        by_cases he : q' = q
        · subst he
          rw [Mailboxes.setQueue_self]
          rw [ha, List.map_append, List.map_cons] at hn
          have hnot : x.1 ∉ (as ++ bs).map Prod.fst := by
            rw [List.map_append]
            exact (List.nodup_cons.mp (List.nodup_middle.mp hn)).1
          exact fun hmem => hnot (hy ▸ List.mem_map_of_mem hmem)
        · rw [Mailboxes.setQueue_of_ne he]
          exact fun hmem => he ((hold.mp hmem).2.1.2.symm.trans (hy ▸ hxq.2))
      simp [hno, hout]
    · have hedge : Edge (t.setTcb x.1 r) y.1 q' ↔ Edge s y.1 q' := by
        rw [← edge_relink hr]
        unfold Edge
        rw [State.setTcb_of_ne hy]
      rw [hedge, State.setTcb_of_ne hy, hm]
      show _ ↔ y.1 ∈ t.all ∧ _
      rw [hall, ← hold]
      by_cases he : q' = q
      · subst he
        have hyx : y ≠ x := fun hyx => hy (by rw [hyx])
        rw [Mailboxes.setQueue_self, ha]
        simp [hyx]
      · rw [Mailboxes.setQueue_of_ne he]
  · have hq'' : q' ∉ s.all := hall ▸ hq'
    have he : q' ≠ q := fun he => hq'' (he ▸ hq)
    rw [Mailboxes.setQueue_of_ne he]
    exact h.dead q' hq''

/-! ## The steps -/

/-- The mailboxes after an event, and what it returns. -/
def Matches (s : State) (a : Mailboxes) : Prop := Locals s a ∧ Queues s a

theorem Locals.idle (h : Locals s a) (hp : p ∈ s.all) (hb : (s.tcb p).blocked = false) :
    (s.tcb p).sending = false ∧ (s.tcb p).receiving = false ∧ a.waiting p = none := by
  have hn := (not_congr (h.ok p hp).blocked).mp (by simp [hb])
  simp only [not_or, Bool.not_eq_true] at hn
  exact ⟨hn.1, hn.2, by simp [h.waiting p hp, waitOf, hn.2]⟩

theorem ready_of_idle (hl : Locals s a) (hqs : Queues s a) (hp : p ∈ s.all)
    (hb : (s.tcb p).blocked = false) : a.Ready p := by
  obtain ⟨hs, -, hw⟩ := hl.idle hp hb
  refine ⟨hw, fun q x hx he => ?_⟩
  by_cases hq : q ∈ s.all
  · have hsend := ((hqs.queued q hq x).mp hx).2.1.1
    rw [he, hs] at hsend
    cases hsend
  · rw [hqs.dead q hq] at hx
    cases hx

theorem awaits_iff (h : Locals s a) (hq : q ∈ s.all) :
    a.Awaits q p ↔ (s.tcb q).receiving = true ∧ (s.tcb q).pRecvfrom = p ∨
      (s.tcb q).pRecvfrom = anyTask := by
  have hany := (h.ok q hq).any
  unfold Mailboxes.Awaits
  rw [h.waiting q hq, waitOf]
  cases hr : (s.tcb q).receiving <;> simp_all

theorem wp_send (hpids : ∀ p ∈ s.all, 0 < p) (hs : Sound pids s) (hl : Locals s a)
    (hqs : Queues s a) {m : Message} (hp : p ∈ s.all) (hq : q ∈ s.all) (hne : p ≠ q)
    (hb : (s.tcb p).blocked = false) (hc : s.call p = .none) :
    wp (fun x => x = .deadlock) (msgSend p q (m.stamp p)) (fun _ t =>
      Matches (t.setCall p (if (t.tcb p).blocked then .send else .none)) (a.next (.send p q m)).2) s := by
  obtain ⟨hidle, hidle', hwait⟩ := hl.idle hp hb
  have hready := ready_of_idle hl hqs hp hb
  simp only [msgSend, wp_bind, wp_pid2proc]
  refine ⟨fun _ => ?_, fun hno => absurd hq hno⟩
  refine wp_mono (wp_allow (wp_detectCycle hs hq) fun _ => False.elim) ?_
  rintro cycle t ⟨ht, -⟩
  subst t
  simp only [wp_check, wp_ite, wp_bind, wp_tcbAt, wp_setTcb, implies_true, and_true]
  intro _
  rw [← awaits_iff hl hq]
  have hok := hl.ok q hq
  refine ⟨fun haw => ?_, fun haw => ?_⟩
  · have hrecv : (s.tcb q).receiving = true :=
      ((awaits_iff hl hq).mp haw).elim (fun h => h.1) hok.any
    have hsend : (s.tcb q).sending = false := by
      cases hsq : (s.tcb q).sending with
      | false => rfl
      | true => rw [hok.apart hsq] at hrecv; cases hrecv
    refine ⟨fun _ => ?_, fun hno => ?_⟩
    · have hblk : (s.tcb q).blocked = true := hok.blocked.mpr (.inr hrecv)
      simp only [wp_threadUnblock, State.setTcb_self, State.setTcb_setTcb, hblk, true_implies,
        reduceCtorEq, false_implies, and_true]
      rw [State.setTcb_of_ne hne, hb]
      simp only [Bool.false_eq_true, if_false, Mailboxes.next, if_pos haw]
      rw [State.setCall_same (show State.call (State.setTcb _ _ _) p = _ from hc)]
      have hcall := hok.receive hrecv
      constructor
      · refine hl.putTcb (.awake hsend rfl rfl noTask_ne_anyTask noTask_ne_intrTask) ?_ ?_ ?_
        · simp [waitOf]
        · simp [boxOf, hcall]
        · exact (Function.update_eq_self_iff.mpr (hl.noted q hq).symm).symm
      · exact hqs.put ⟨rfl, rfl⟩ rfl (fun h => by rw [hsend] at h; cases h) rfl
    · rw [hok.source (.inr hrecv)] at hno
      exact absurd (hpids q hq) hno
  · refine ⟨fun _ => ?_, fun hno => absurd hidle' hno⟩
    have hqueue : QueueIs (s.setTcb p { s.tcb p with
        sending := true, pSendto := q, pMessage := m.stamp p }) q ((a.queue q).map Prod.fst) := by
      refine (queueIs_setTcb ?_).mpr (hqs.chain q hq)
      exact ⟨rfl, rfl⟩
    have hin : ∀ x ∈ (a.queue q).map Prod.fst, x ∈ s.all := by
      intro x hx
      obtain ⟨y, hy, rfl⟩ := List.mem_map.mp hx
      exact ((hqs.queued q hq y).mp hy).1
    have hout : p ∉ (a.queue q).map Prod.fst := by
      intro hx
      obtain ⟨y, hy, hyp⟩ := List.mem_map.mp hx
      exact hready.2 q y hy hyp
    refine wp_mono (wp_allow (wp_enqueue hqueue (hqs.nodup q) hin hout) fun _ => False.elim) ?_
    rintro - t ⟨hr, hc', ho⟩
    simp only [wp_threadAuthBlock, State.setTcb_self, if_true, Mailboxes.next, if_neg haw]
    have hq1 := hqs.push hr hp hq hready.2 ⟨rfl, rfl⟩ rfl rfl hc' ho
    refine ⟨?_, Queues.setCall (hq1.put ?_ ?_ ?_ ?_)⟩
    rotate_left
    · exact ⟨rfl, rfl⟩
    · rfl
    · exact fun _ => ⟨rfl, rfl⟩
    · rfl
    -- the links aside, only the sender's TCB and its place in the call have changed
    have hput : Locals ((s.setTcb p { s.tcb p with
        sending := true, pSendto := q, pMessage := m.stamp p, blocked := true }).setCall p .send)
        (a.setQueue q (a.queue q ++ [(p, m.stamp p)])) := by
      have hokp := hl.ok p hp
      refine hl.put ⟨?_, ?_, ?_, ?_, hokp.any, hokp.intr, ?_, ?_⟩ ?_ ?_ ?_
      · exact fun _ => hidle'
      · simp
      · simp
      · intro h
        rw [hidle'] at h
        cases h
      · simp
      · intro h
        rw [hidle'] at h
        cases h
      · simp [waitOf, hidle', hwait]
      · simp [boxOf, hl.box p hp, hc]
      · exact (Function.update_eq_self_iff.mpr (hl.noted p hp).symm).symm
    have hlinks := (hr.modify p (fun r => { r with blocked := true }) fun _ => rfl).setCall p .send
    rw [State.setTcb_self, State.setTcb_setTcb] at hlinks
    exact hput.relink hlinks

/-- The sender that `findSender` returns is the first one in the queue whose message is wanted. -/
theorem wp_findSender (hl : Locals s a) (hqs : Queues s a)
    (hp : p ∈ s.all) (hb : (s.tcb p).blocked = false) {src : Pid}
    (hsrc : src = anyTask ∨ src ∈ s.all ∧ src < taskMax) :
    wp (fun _ => False) (findSender p src) (fun o t => t = s ∧
      ((∃ as x bs, (a.queue p).find? (fun x => Takes src x.1) = some x ∧
        a.queue p = as ++ x :: bs ∧ (a.queue p).erase x = as ++ bs ∧
        o = some (x.1, (as.map Prod.fst).getLast?)) ∨
      (a.queue p).find? (fun x => Takes src x.1) = none ∧ o = none)) s := by
  have hch := hqs.chain p hp
  obtain ⟨hidle, hidle', -⟩ := hl.idle hp hb
  have hin : ∀ x ∈ (a.queue p).map Prod.fst, x ∈ s.all := by
    intro x hx
    obtain ⟨y, hy, rfl⟩ := List.mem_map.mp hx
    exact ((hqs.queued p hp y).mp hy).1
  have hlen := length_le_of_nodup (hqs.nodup p) hin
  unfold QueueIs at hch
  simp only [findSender, wp_bind, wp_get, wp_ite]
  refine ⟨fun hany => ?_, fun hany => ⟨fun _ => ?_, fun hno => ?_⟩⟩
  · simp only [wp_pure, true_and, hany]
    rw [hch.head_eq]
    cases a.queue p with
    | nil => right; simp
    | cons x bs => left; exact ⟨[], x, bs, by simp⟩
  · obtain ⟨hlive, -⟩ := hsrc.resolve_left hany
    simp only [wp_pid2proc, wp_check, wp_need, wp_tcbAt, wp_pure, true_and]
    refine ⟨fun _ => ⟨fun hedge => ?_, fun hedge => ?_⟩, fun hno => hno hlive⟩
    · have hmem : (src, (s.tcb src).pMessage) ∈ a.queue p :=
        (hqs.queued p hp _).mpr ⟨hlive, hedge, rfl⟩
      cases hfind : (a.queue p).find? fun x => Takes src x.1 with
      | none =>
        have := List.find?_eq_none.mp hfind _ hmem
        simp at this
      | some x =>
        obtain ⟨as, bs, hq, herase, hx, has⟩ := Mailboxes.find_split hfind
        have hxs : src = x.1 := by simpa [hany] using hx
        have hnot : x.1 ∉ as.map Prod.fst := by
          intro hm
          obtain ⟨y, hy, hyx⟩ := List.mem_map.mp hm
          have := has y hy
          simp [hyx, hxs] at this
        rw [hq, List.map_append, List.map_cons] at hch hlen
        have hwalk : Chain.walkTo s.next src (s.all.length + 1) none (s.head p) =
            some (as.map Prod.fst).getLast? := by
          rw [hxs, Chain.walkTo_eq hch hnot (by simp at hlen; simp; omega), Option.or_none]
        have hhead : s.head p ≠ none := by
          rw [hch.head_eq]
          simp
        refine ⟨fun _ => ⟨fun prev hprev => ?_, fun hno => ?_⟩, fun hno => hno hhead⟩
        · rw [hwalk] at hprev
          obtain rfl := Option.some.inj hprev
          refine ⟨fun _ => ?_, fun hno => hno ⟨hidle, hidle'⟩⟩
          exact .inl ⟨as, x, bs, rfl, hq, herase, by rw [hxs]⟩
        · rw [hwalk] at hno
          cases hno
    · right
      refine ⟨?_, trivial⟩
      rw [List.find?_eq_none]
      intro x hx hxs
      have hxs' : src = x.1 := by simpa [hany] using hxs
      exact hedge (hxs' ▸ ((hqs.queued p hp x).mp hx).2.1)
  · exact absurd (hsrc.resolve_left hany).2 hno

/-- A receive that meets no notification takes the first message it wants, or waits. -/
theorem wp_receive (hpids : ∀ p ∈ s.all, 0 < p) (hl : Locals s a) (hqs : Queues s a) {m : Message}
    (hp : p ∈ s.all) (hb : (s.tcb p).blocked = false) (hc : s.call p = .none) {src : Pid}
    (hsrc : src = anyTask ∨ src ∈ s.all ∧ src < taskMax) (hi : src ≠ intrTask)
    (hquiet : src = anyTask → (s.tcb p).pIntrPresent = false) :
    wp (fun _ => False) (msgReceive p src (m.stamp p)) (fun r t =>
      r = (a.next (.receive p src m)).1 ∧
      Matches (t.setCall p (if r.isSome then .none else .receive)) (a.next (.receive p src m)).2) s := by
  obtain ⟨hidle, hidle', hwait⟩ := hl.idle hp hb
  have hnoted : ¬ (a.noted p = true ∧ Takes src intrTask) := by
    rintro ⟨hn, ht⟩
    rw [hl.noted p hp, hquiet (ht.resolve_left hi)] at hn
    cases hn
  simp only [msgReceive, wp_bind, wp_tcbAt, wp_ite, Mailboxes.next, if_neg hnoted]
  refine ⟨fun hintr => ?_, fun _ => ?_⟩
  · rcases hintr with ⟨hn, hs⟩ | hs
    · rw [hquiet hs] at hn
      cases hn
    · exact absurd hs hi
  refine wp_mono (wp_findSender hl hqs hp hb hsrc) ?_
  rintro o t ⟨ht, hfind⟩
  subst t
  rcases hfind with ⟨as, x, bs, hx, hq, herase, rfl⟩ | ⟨hx, rfl⟩
  · simp only [hx, wp_bind]
    have hmem : x ∈ a.queue p := by rw [hq]; simp
    obtain ⟨hxa, hedge, hxm⟩ := (hqs.queued p hp x).mp hmem
    have hokx := hl.ok x.1 hxa
    have hxp : p ≠ x.1 := by
      intro he
      have hsend := hedge.1
      rw [← he, hidle] at hsend
      cases hsend
    have hch := hqs.chain p hp
    have hn := hqs.nodup p
    have hq' : (a.queue p).map Prod.fst = as.map Prod.fst ++ x.1 :: bs.map Prod.fst := by
      rw [hq, List.map_append, List.map_cons]
    rw [hq'] at hch hn
    refine wp_mono (wp_dequeue hch hn) ?_
    rintro - t ⟨hr, hc', ho⟩
    rw [← hq'] at ho
    rw [← List.map_append] at hc'
    have hmt : (t.tcb x.1).pMessage = x.2 := (congrArg Tcb.pMessage (hr.tcb_eq x.1) :).trans hxm
    have hbt : (t.tcb x.1).blocked = true :=
      (congrArg Tcb.blocked (hr.tcb_eq x.1) :).trans (hokx.blocked.mpr (.inl hedge.1))
    simp only [wp_tcbAt, wp_check, wp_setTcb, wp_threadUnblock, wp_pure, hmt, hbt,
      State.setTcb_self, State.setTcb_setTcb, Bool.true_eq_false, false_implies, and_true,
      true_implies, Option.isSome_some, if_true]
    refine ⟨fun _ => ⟨trivial, ?_⟩, fun hno => ?_⟩
    · rw [herase]
      have hct : State.call (t.setTcb x.1 { t.tcb x.1 with
          pMessage := Message.zero, pSendto := noTask, sending := false, blocked := false }) p =
          .none := (congrFun hr.call_eq p).trans hc
      rw [State.setCall_same hct]
      refine ⟨?_, hqs.take hp hq hr hc' ho ⟨rfl, rfl⟩ rfl⟩
      have hf : (s.tcb x.1).receiving = false := hokx.apart hedge.1
      have hfrom : (s.tcb x.1).pRecvfrom ≠ anyTask := fun he => by
        rw [hokx.any he] at hf
        cases hf
      have hput : Locals (s.setTcb x.1 { s.tcb x.1 with
          pMessage := Message.zero, pSendto := noTask, sending := false, blocked := false })
          (a.setQueue p (as ++ bs)) := by
        refine hl.putTcb (.awake rfl hf rfl hfrom hokx.intr) ?_ ?_ ?_
        · simp [waitOf, hf, hl.waiting x.1 hxa]
        · simp [boxOf, hokx.send hedge.1, hl.box x.1 hxa]
        · exact (Function.update_eq_self_iff.mpr (hl.noted x.1 hxa).symm).symm
      exact hput.relink (hr.modify x.1 (fun r => { r with
        pMessage := Message.zero, pSendto := noTask, sending := false, blocked := false }) fun _ => rfl)
    · have hm : x.2.mSource = x.1 := hxm ▸ hokx.source (.inl hedge.1)
      rw [hm] at hno
      exact hno (hpids x.1 hxa)
  · simp only [hx, wp_bind, wp_setTcb, wp_threadAuthBlock, wp_pure, State.setTcb_self,
      State.setTcb_setTcb, Option.isSome_none, Bool.false_eq_true, if_false, true_and]
    have hokp := hl.ok p hp
    refine ⟨hl.put ⟨?_, ?_, ?_, ?_, ?_, hi, ?_, ?_⟩ ?_ ?_ ?_, Queues.setCall (hqs.put ?_ ?_ ?_ ?_)⟩
    · intro h
      rw [hidle] at h
      cases h
    · simp
    · intro h
      rw [hidle] at h
      cases h
    · simp
    · simp
    · simp
    · exact fun _ => hquiet
    · simp [waitOf]
    · simp [boxOf, hl.box p hp, hc]
    · exact (Function.update_eq_self_iff.mpr (hl.noted p hp).symm).symm
    · exact ⟨rfl, rfl⟩
    · rfl
    · intro h
      rw [hidle] at h
      cases h
    · rfl

theorem wp_resume (hl : Locals s a) (hqs : Queues s a) (hp : p ∈ s.all)
    (hb : (s.tcb p).blocked = false) :
    wp (fun _ => False) (doEvent (.resume p)) (fun r t =>
      r = (a.next (.resume p)).1 ∧ Matches t (a.next (.resume p)).2) s := by
  obtain ⟨hidle, hidle', hwait⟩ := hl.idle hp hb
  have hok := hl.ok p hp
  have hfrom : (s.tcb p).pRecvfrom ≠ anyTask := fun he => by
    rw [hok.any he] at hidle'
    cases hidle'
  simp only [doEvent, wp_bind, wp_get, wp_setCall, wp_pure, Mailboxes.next]
  refine ⟨by simp [hl.box p hp, boxOf, hb], ?_,
    ⟨hqs.chain, hqs.nodup, hqs.queued, hqs.dead⟩⟩
  have hput : Locals ((s.setTcb p (s.tcb p)).setCall p .none)
      { a with box := Function.update a.box p none } := by
    refine hl.put (.awake hidle hidle' hb hfrom hok.intr) ?_ ?_ ?_
    · simp [waitOf, hidle', hwait]
    · simp [boxOf]
    · exact (Function.update_eq_self_iff.mpr (hl.noted p hp).symm).symm
  rwa [State.setTcb_same] at hput

/-- An interrupt wakes a receive that waits for one, or is noted. -/
theorem wp_notify (hl : Locals s a) (hqs : Queues s a) (hp : p ∈ s.all)
    (hquiet : (s.tcb p).receiving = true → (s.tcb p).pRecvfrom = anyTask →
      (s.tcb p).pSendto = noTask) :
    wp (fun _ => False) (doEvent (.notify p)) (fun r t =>
      r = (a.next (.notify p)).1 ∧ Matches t (a.next (.notify p)).2) s := by
  have hok := hl.ok p hp
  have hw := hl.waiting p hp
  have hnote : Locals (s.setTcb p { s.tcb p with pIntrPresent := true })
      { a with noted := Function.update a.noted p true } ∨
      (s.tcb p).receiving = true ∧ (s.tcb p).pRecvfrom = anyTask := by
    by_cases hany : (s.tcb p).receiving = true ∧ (s.tcb p).pRecvfrom = anyTask
    · exact .inr hany
    · refine .inl (hl.putTcb ⟨hok.apart, hok.blocked, hok.send, hok.receive, hok.any, hok.intr,
        hok.source, fun h1 h2 => absurd ⟨h1, h2⟩ hany⟩ ?_ ?_ ?_)
      · exact (Function.update_eq_self_iff.mpr hw.symm).symm
      · exact (Function.update_eq_self_iff.mpr (hl.box p hp).symm).symm
      · rfl
  simp only [doEvent, notifyIntr, wp_bind, wp_pid2proc, wp_ite, wp_setTcb, wp_check, wp_threadUnblock,
    wp_pure, State.setTcb_self, State.setTcb_setTcb]
  refine ⟨fun _ => ⟨fun hr => ?_, fun hno => ?_⟩, fun hno => hno hp⟩
  · obtain ⟨hrecv, hfrom⟩ := hr
    have hfrom' := hfrom.resolve_left hok.intr
    have hsend : (s.tcb p).sending = false := by
      cases hs : (s.tcb p).sending with
      | false => rfl
      | true => rw [hok.apart hs] at hrecv; cases hrecv
    have hblk : (s.tcb p).blocked = true := hok.blocked.mpr (.inr hrecv)
    have haw : a.waiting p = some (anyTask, (s.tcb p).pMessage) := by
      simp [hw, waitOf, hrecv, hfrom']
    have htakes : Takes anyTask intrTask := .inr rfl
    simp only [Mailboxes.next, haw, if_pos htakes]
    refine ⟨fun _ => ⟨fun _ => ⟨fun _ => ⟨trivial, ?_, hqs.put ?_ ?_ ?_ ?_⟩,
      fun hno => hno (hquiet hrecv hfrom')⟩, fun hno => ?_⟩, fun hno => hno hsend⟩
    · refine hl.putTcb (.awake hsend rfl rfl noTask_ne_anyTask noTask_ne_intrTask) ?_ ?_ ?_
      · simp [waitOf]
      · simp [boxOf, hok.receive hrecv]
      · refine (Function.update_eq_self_iff.mpr ?_).symm
        rw [hl.noted p hp]
        exact (hok.unnoted hrecv hfrom').symm
    · exact ⟨rfl, rfl⟩
    · rfl
    · intro h
      rw [hsend] at h
      cases h
    · rfl
    · rw [hblk] at hno
      cases hno
  · have hl' := hnote.resolve_right fun h => hno ⟨h.1, .inr h.2⟩
    have hnext : a.next (.notify p) = (none, { a with noted := Function.update a.noted p true }) := by
      simp only [Mailboxes.next]
      rw [hw, waitOf]
      by_cases hrecv : (s.tcb p).receiving = true
      · have ht : ¬ Takes (s.tcb p).pRecvfrom intrTask := fun ht => hno ⟨hrecv, ht⟩
        simp only [hrecv, if_true, if_neg ht]
      · simp only [hrecv, Bool.false_eq_true, if_false]
    rw [hnext]
    refine ⟨rfl, hl', hqs.put ?_ ?_ ?_ ?_⟩
    · exact ⟨rfl, rfl⟩
    · rfl
    · exact fun _ => ⟨rfl, rfl⟩
    · rfl

/-! ## Runs -/

/-- The other party of a call is there. -/
def Addressed (s : State) : Event → Prop
  | .send p q _ => q ∈ s.all ∧ q < taskMax ∧ p ≠ q
  | .receive p src _ => (src = anyTask ∨ src = intrTask ∨ src ∈ s.all ∧ src < taskMax) ∧ p ≠ src
  | .resume _ | .notify _ => True

theorem pid2proc_eq_ok {e : Stop} {r : Tcb} :
    pid2proc p e s = .ok (r, t) ↔ p ∈ s.all ∧ r = s.tcb p ∧ t = s := by
  simp only [pid2proc, bind_eq_ok, get_apply, check_eq_ok, pure_apply]
  constructor
  · rintro ⟨_, _, h, _, _, ⟨hp, rfl⟩, h'⟩
    cases h
    cases h'
    exact ⟨hp, rfl, rfl⟩
  · rintro ⟨hp, rfl, rfl⟩
    exact ⟨_, _, rfl, (), _, ⟨hp, rfl⟩, rfl⟩

theorem addressed_of_ok {e : Event} {r : Option Message} (hpids : ∀ p ∈ s.all, p < 2 ^ 31)
    (h : doEvent e s = .ok (r, t)) : Addressed s e := by
  cases e with
  | send p q m =>
    simp only [doEvent, checkTarget, msgSend, bind_eq_ok, check_eq_ok, pid2proc_eq_ok] at h
    obtain ⟨_, _, ⟨_, _, ⟨hto, rfl⟩, hne, rfl⟩, _, _, ⟨_, _, ⟨hq, _⟩, _⟩, _⟩ := h
    have hlt := hpids q hq
    refine ⟨hq, ?_, hne⟩
    rcases hto with h | rfl | rfl
    · exact h.2
    · exact absurd hlt (by decide)
    · exact absurd hlt (by decide)
  | receive p src m =>
    simp only [doEvent, checkTarget, bind_eq_ok, check_eq_ok] at h
    obtain ⟨_, _, ⟨_, _, ⟨hsrc, rfl⟩, hne, rfl⟩, _, _, hrecv, _⟩ := h
    refine ⟨?_, hne⟩
    by_cases hany : src = anyTask
    · exact .inl hany
    by_cases hintr : src = intrTask
    · exact .inr (.inl hintr)
    have hlt : src < taskMax := by tauto
    simp only [msgReceive, bind_eq_ok] at hrecv
    obtain ⟨r, s1, htcb, hrecv⟩ := hrecv
    cases htcb
    simp only [hany, hintr, and_false, or_false, if_false, bind_eq_ok] at hrecv
    obtain ⟨o, s2, hfind, _⟩ := hrecv
    simp only [findSender, hany, hlt, if_false, if_true, bind_eq_ok, pid2proc_eq_ok] at hfind
    obtain ⟨_, _, hget, _, _, ⟨hin, _⟩, _⟩ := hfind
    cases hget
    exact .inr (.inr ⟨hin, hlt⟩)
  | resume p => trivial
  | notify p => trivial

/-- No receive meets a notification that is already there, and a receive that is woken by one was
made by a process whose last blocked send is over. -/
def Quiet (s : State) : Event → Prop
  | .receive p src _ => src ≠ intrTask ∧ (src = anyTask → (s.tcb p).pIntrPresent = false)
  | .notify p => (s.tcb p).receiving = true → (s.tcb p).pRecvfrom = anyTask →
      (s.tcb p).pSendto = noTask
  | .send _ _ _ | .resume _ => True

/-- The only thing that stops a quiet event is the deadlock that a send would cause. -/
def Rejected (e : Event) (x : Stop) : Prop := x = .deadlock ∧ ∃ p q m, e = .send p q m

theorem wp_doEvent (hpids : ∀ p ∈ pids, 0 < p) (h : Agrees pids s a) {e : Event}
    (he : Enabled s e) (hq : Quiet s e) (had : Addressed s e) :
    wp (Rejected e) (doEvent e) (fun r t => r = (a.next e).1 ∧ Agrees pids t (a.next e).2) s := by
  obtain ⟨hs, hl, hqs⟩ := h
  rw [← hs.all_eq] at hpids
  suffices hm : wp (Rejected e) (doEvent e)
      (fun r t => r = (a.next e).1 ∧ Matches t (a.next e).2) s by
    refine wp_mono (wp_and hm (keeps_doEvent e s hs)) ?_
    rintro r t ⟨⟨hr, hl', hqs'⟩, hs'⟩
    exact ⟨hr, hs', hl', hqs'⟩
  cases e with
  | send p q m =>
    obtain ⟨hp, hb, hc⟩ := he
    obtain ⟨hq', hlt, hne⟩ := had
    simp only [doEvent, checkTarget, wp_bind, wp_check, wp_tcbAt, wp_setCall, wp_pure]
    refine ⟨fun _ => ⟨fun _ => ?_, fun hno => absurd hne hno⟩,
      fun hno => absurd (.inl ⟨hpids q hq', hlt⟩) hno⟩
    refine wp_allow (wp_mono (wp_send hpids hs hl hqs hp hq' hne hb hc) fun _ t ht => ⟨rfl, ht⟩) ?_
    exact fun x hx => ⟨hx, p, q, m, rfl⟩
  | receive p src m =>
    obtain ⟨hp, hb, hc⟩ := he
    obtain ⟨hsrc, hne⟩ := had
    have hsrc' : src = anyTask ∨ src ∈ s.all ∧ src < taskMax :=
      hsrc.imp_right fun h => h.resolve_left hq.1
    simp only [doEvent, checkTarget, wp_bind, wp_check, wp_setCall, wp_pure]
    refine ⟨fun _ => ⟨fun _ => ?_, fun hno => absurd hne hno⟩, fun hno => absurd ?_ hno⟩
    · exact wp_allow (wp_receive hpids hl hqs hp hb hc hsrc' hq.1 hq.2) fun _ => False.elim
    · rcases hsrc' with h | ⟨h, h'⟩
      · exact .inr (.inl h)
      · exact .inl ⟨hpids src h, h'⟩
  | resume p =>
    exact wp_allow (wp_resume hl hqs he.1 he.2.1) fun _ => False.elim
  | notify p =>
    exact wp_allow (wp_notify hl hqs he hq) fun _ => False.elim

theorem Agrees.allowed (h : Agrees pids s a) {e : Event} (he : Enabled s e) : a.Allowed e := by
  cases e with
  | send p q m =>
    obtain ⟨hp, hb, hc⟩ := he
    exact ⟨ready_of_idle h.locals h.queues hp hb, by simp [h.locals.box p hp, boxOf, hc]⟩
  | receive p src m =>
    obtain ⟨hp, hb, hc⟩ := he
    exact ⟨ready_of_idle h.locals h.queues hp hb, by simp [h.locals.box p hp, boxOf, hc]⟩
  | resume p => exact ready_of_idle h.locals h.queues he.1 he.2.1
  | notify p => trivial

theorem Agrees.init (pids : List Pid) : Agrees pids (State.init pids) .empty := by
  refine ⟨.init pids, ⟨fun p _ => .awake rfl rfl rfl (show (0 : Nat) ≠ anyTask by decide)
    (show (0 : Nat) ≠ intrTask by decide), fun _ _ => rfl, fun _ _ => rfl, fun _ _ => rfl⟩, ?_⟩
  refine ⟨fun q _ => rfl, fun q => List.nodup_nil, fun q _ x => ?_, fun _ _ => rfl⟩
  refine iff_of_false List.not_mem_nil ?_
  rintro ⟨-, ⟨hsend, -⟩, -⟩
  cases hsend

/-- A quiet step is a step of the mailboxes with the same result. -/
theorem Agrees.step (h : Agrees pids s a) (hpids : ∀ p ∈ pids, 0 < p ∧ p < 2 ^ 31)
    {l : Event × Option Message} (hq : Quiet s l.1) (hst : Step s l t) :
    ∃ b, Mailboxes.Step a l b ∧ Agrees pids t b := by
  obtain ⟨he, hrun⟩ := hst
  have had := addressed_of_ok (fun p hp => (hpids p (h.sound.all_eq ▸ hp)).2) hrun
  obtain ⟨hr, ht⟩ := wp_ok (wp_doEvent (fun p hp => (hpids p hp).1) h he hq had) hrun
  exact ⟨_, ⟨h.allowed he, Prod.ext hr.symm rfl⟩, ht⟩

theorem Agrees.run (h : Agrees pids s a) (hpids : ∀ p ∈ pids, 0 < p ∧ p < 2 ^ 31)
    {as : List (Event × Option Message)} (hrun : Run (Guarded (fun s l => Quiet s l.1) Step) s as t) :
    ∃ b, Run Mailboxes.Step a as b ∧ Agrees pids t b := by
  induction hrun generalizing a with
  | nil => exact ⟨a, .nil a, h⟩
  | cons hst _ ih =>
    obtain ⟨c, hac, hc⟩ := h.step hpids hst.1 hst.2
    obtain ⟨b, hcb, hb⟩ := ih hc
    exact ⟨b, .cons hac hcb, hb⟩

end Frog.Ipc
