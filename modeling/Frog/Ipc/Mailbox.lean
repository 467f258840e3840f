import Frog.Ipc.Msg

/-!
# What the message system is for

Every process has a queue of messages, each with the sender that waits for it, a box for the
message its blocked receive was given, and a note that an interrupt occurred. A send goes into
the box of a receiver that waits for it, else to the end of the queue.
-/

namespace Frog.Ipc

set_option autoImplicit false

structure Mailboxes where
  queue : Pid → List (Pid × Message)
  waiting : Pid → Option (Pid × Message)
  box : Pid → Option Message
  noted : Pid → Bool

/-- A receive from `src` takes what `p` sends. -/
abbrev Takes (src p : Pid) : Prop := src = p ∨ src = anyTask

/-- The notification as the caller finds it in its buffer. -/
abbrev Message.intr (m : Message) : Message := { m with mSource := intrTask, mType := hardInt }

namespace Mailboxes

def empty : Mailboxes := ⟨fun _ => [], fun _ => none, fun _ => none, fun _ => false⟩

/-- `q` waits for a message that `p` can send; an interrupt counts as a sender. -/
def Awaits (a : Mailboxes) (q p : Pid) : Prop := ∃ w ∈ a.waiting q, Takes w.1 p

instance (a : Mailboxes) (q p : Pid) : Decidable (a.Awaits q p) :=
  inferInstanceAs (Decidable (∃ w ∈ a.waiting q, Takes w.1 p))

abbrev deliver (a : Mailboxes) (q : Pid) (m : Message) : Mailboxes :=
  { a with
    waiting := Function.update a.waiting q none
    box := Function.update a.box q (some m) }

abbrev setQueue (a : Mailboxes) (q : Pid) (l : List (Pid × Message)) : Mailboxes :=
  { a with queue := Function.update a.queue q l }

@[simp] theorem setQueue_self (a : Mailboxes) (q : Pid) (l : List (Pid × Message)) :
    (a.setQueue q l).queue q = l := Function.update_self ..

theorem setQueue_of_ne {a : Mailboxes} {q q' : Pid} {l : List (Pid × Message)} (h : q' ≠ q) :
    (a.setQueue q l).queue q' = a.queue q' := Function.update_of_ne h ..

def next (a : Mailboxes) : Event → Option Message × Mailboxes
  | .send p q m =>
    (none, if a.Awaits q p then a.deliver q (m.stamp p)
      else a.setQueue q (a.queue q ++ [(p, m.stamp p)]))
  | .receive p src m =>
    if a.noted p = true ∧ Takes src intrTask then
      (some (m.stamp p).intr, { a with noted := Function.update a.noted p false })
    else
      match (a.queue p).find? fun x => Takes src x.1 with
      | some x => (some x.2, a.setQueue p ((a.queue p).erase x))
      | none => (none, { a with waiting := Function.update a.waiting p (some (src, m.stamp p)) })
  | .resume p => (a.box p, { a with box := Function.update a.box p none })
  | .notify p =>
    match a.waiting p with
    | some (src, m) =>
      if Takes src intrTask then (none, a.deliver p m.intr)
      else (none, { a with noted := Function.update a.noted p true })
    | none => (none, { a with noted := Function.update a.noted p true })

/-- `p` waits neither for a message nor for its own to be taken. -/
def Ready (a : Mailboxes) (p : Pid) : Prop := a.waiting p = none ∧ ∀ q, ∀ x ∈ a.queue q, x.1 ≠ p

/-- One call of a process at a time. -/
def Allowed (a : Mailboxes) : Event → Prop
  | .send p _ _ | .receive p _ _ => a.Ready p ∧ a.box p = none
  | .resume p => a.Ready p
  | .notify _ => True

def Step (a : Mailboxes) (l : Event × Option Message) (b : Mailboxes) : Prop :=
  a.Allowed l.1 ∧ a.next l.1 = (l.2, b)

/-! ## Order -/

structure Tidy (a : Mailboxes) : Prop where
  source : ∀ q, ∀ x ∈ a.queue q, x.2.mSource = x.1
  nodup : ∀ q, ((a.queue q).map Prod.fst).Nodup
  boxed : ∀ q, a.waiting q ≠ none → a.box q = none

theorem Tidy.empty : Tidy empty :=
  ⟨fun _ _ h => absurd h List.not_mem_nil, fun _ => List.nodup_nil, fun _ h => absurd rfl h⟩

end Mailboxes

/-- The message that `l` sends from `p` to `q`. -/
def sentIn (p q : Pid) : Event × Option Message → Option Message
  | (.send p' q' m, _) => if p' = p ∧ q' = q then some (m.stamp p) else none
  | _ => none

/-- The message from `p` that a call of `q` returns with in `l`. -/
def receivedIn (p q : Pid) : Event × Option Message → Option Message
  | (.receive q' _ _, some m) | (.resume q', some m) =>
    if q' = q ∧ m.mSource = p then some m else none
  | _ => none

def sent (p q : Pid) (as : List (Event × Option Message)) : List Message := as.filterMap (sentIn p q)

def received (p q : Pid) (as : List (Event × Option Message)) : List Message :=
  as.filterMap (receivedIn p q)

namespace Mailboxes

/-- What `p` sent to `q` and no call of `q` has returned with. -/
def pending (a : Mailboxes) (p q : Pid) : List Message :=
  (a.box q).toList.filter (·.mSource = p) ++ ((a.queue q).filter (·.1 = p)).map Prod.snd

variable {a b : Mailboxes} {l : Event × Option Message} {p q : Pid}

theorem Ready.queued_nil (h : a.Ready p) : (a.queue q).filter (·.1 = p) = [] := by
  rw [List.filter_eq_nil_iff]
  intro x hx
  simpa using h.2 q x hx

/-- The entry that a search finds, with what stands before and behind it. -/
theorem find_split {xs : List (Pid × Message)} {f : Pid × Message → Bool} {x : Pid × Message}
    (h : xs.find? f = some x) :
    ∃ as bs, xs = as ++ x :: bs ∧ xs.erase x = as ++ bs ∧ f x = true ∧ ∀ y ∈ as, f y = false := by
  obtain ⟨hx, as, bs, rfl, has⟩ := List.find?_eq_some_iff_append.mp h
  have has' : ∀ y ∈ as, f y = false := fun y hy => by simpa using has y hy
  have hnot : x ∉ as := fun hm => by simp [has' x hm] at hx
  refine ⟨as, bs, rfl, ?_, hx, has'⟩
  rw [List.erase_append_right _ hnot, List.erase_cons_head]

/-- A sender that stands once in the queue is gone once it is taken. -/
theorem filter_taken {as bs : List (Pid × Message)} {x : Pid × Message}
    (hn : ((as ++ x :: bs).map Prod.fst).Nodup) :
    (as ++ x :: bs).filter (·.1 = p) =
      (if x.1 = p then [x] else []) ++ (as ++ bs).filter (·.1 = p) := by
  by_cases hx : x.1 = p
  · subst hx
    have hout : ∀ y ∈ as ++ bs, y.1 ≠ x.1 := by
      simp only [List.map_append, List.map_cons, List.nodup_append, List.nodup_cons] at hn
      intro y hy he
      rcases List.mem_append.mp hy with hm | hm
      · exact hn.2.2 _ (List.mem_map_of_mem hm) _ (List.mem_cons_self ..) he
      · exact hn.2.1.1 (he ▸ List.mem_map_of_mem hm)
    have hnil : (as ++ bs).filter (·.1 = x.1) = [] := by
      rw [List.filter_eq_nil_iff]
      simpa using hout
    rw [hnil]
    rw [List.filter_append, List.append_eq_nil_iff] at hnil
    simp [hnil.1, hnil.2]
  · simp [hx]

/-- Taking a message, giving one to a box, or adding one to a queue keeps the order. -/
theorem Step.pending (h : Step a l b) (ht : a.Tidy) (hp : p ≠ intrTask) :
    a.pending p q ++ (sentIn p q l).toList = (receivedIn p q l).toList ++ b.pending p q := by
  obtain ⟨e, r⟩ := l
  obtain ⟨hal, hnext⟩ := h
  cases e with
  | send p' q' m =>
    obtain ⟨hr, -⟩ := hal
    simp only [next, Prod.mk.injEq] at hnext
    obtain ⟨rfl, rfl⟩ := hnext
    by_cases ha : a.Awaits q' p'
    · have hbox : a.box q' = none := by
        obtain ⟨w, hw, -⟩ := ha
        exact ht.boxed q' (by rw [Option.mem_def.mp hw]; simp)
      rw [if_pos ha]
      by_cases hq : q' = q
      · subst hq
        by_cases hpp : p' = p
        · subst hpp
          simp [Mailboxes.pending, sentIn, receivedIn, hbox, hr.queued_nil]
        · simp [Mailboxes.pending, sentIn, receivedIn, hbox, hpp]
      · simp [Mailboxes.pending, sentIn, receivedIn, hq, Function.update_of_ne (Ne.symm hq)]
    · rw [if_neg ha]
      by_cases hq : q' = q
      · subst hq
        by_cases hpp : p' = p <;> simp [Mailboxes.pending, sentIn, receivedIn, hpp]
      · simp [Mailboxes.pending, sentIn, receivedIn, hq, Function.update_of_ne (Ne.symm hq)]
  | receive q' src m =>
    obtain ⟨-, hbox⟩ := hal
    simp only [next] at hnext
    split at hnext
    · simp only [Prod.mk.injEq] at hnext
      obtain ⟨rfl, rfl⟩ := hnext
      simp [Mailboxes.pending, sentIn, receivedIn, hp.symm]
    · split at hnext
      · rename_i x hx
        simp only [Prod.mk.injEq] at hnext
        obtain ⟨rfl, rfl⟩ := hnext
        obtain ⟨as, bs, hq', herase, -, -⟩ := find_split hx
        by_cases hq : q' = q
        · subst hq
          have hsource : x.2.mSource = x.1 := ht.source q' x (by rw [hq']; simp)
          have hn := ht.nodup q'
          rw [hq'] at hn
          simp only [Mailboxes.pending, sentIn, receivedIn, hbox, Function.update_self, herase]
          rw [hq', filter_taken hn]
          by_cases hx1 : x.1 = p <;> simp [hsource, hx1]
        · simp [Mailboxes.pending, sentIn, receivedIn, hq, Function.update_of_ne (Ne.symm hq)]
      · simp only [Prod.mk.injEq] at hnext
        obtain ⟨rfl, rfl⟩ := hnext
        simp [Mailboxes.pending, sentIn, receivedIn]
  | resume q' =>
    simp only [next, Prod.mk.injEq] at hnext
    obtain ⟨rfl, rfl⟩ := hnext
    by_cases hq : q' = q
    · subst hq
      cases hb : a.box q' with
      | none => simp [Mailboxes.pending, sentIn, receivedIn, hb]
      | some m => by_cases hm : m.mSource = p <;> simp [Mailboxes.pending, sentIn, receivedIn, hb, hm]
    · cases hb : a.box q' <;>
        simp [Mailboxes.pending, sentIn, receivedIn, hq, Function.update_of_ne (Ne.symm hq)]
  | notify q' =>
    simp only [next] at hnext
    split at hnext
    · rename_i src m hw
      have hbox : a.box q' = none := ht.boxed q' (by rw [hw]; simp)
      split at hnext <;> simp only [Prod.mk.injEq] at hnext <;> obtain ⟨rfl, rfl⟩ := hnext
      · by_cases hq : q' = q
        · subst hq
          simp [Mailboxes.pending, sentIn, receivedIn, hbox, hp.symm]
        · simp [Mailboxes.pending, sentIn, receivedIn, Function.update_of_ne (Ne.symm hq)]
      · simp [Mailboxes.pending, sentIn, receivedIn]
    · simp only [Prod.mk.injEq] at hnext
      obtain ⟨rfl, rfl⟩ := hnext
      simp [Mailboxes.pending, sentIn, receivedIn]

theorem Tidy.deliver (ht : a.Tidy) {m : Message} : (a.deliver q m).Tidy := by
  refine ⟨ht.source, ht.nodup, fun q' hw => ?_⟩
  by_cases hq : q' = q
  · subst hq
    simp at hw
  · simp only [Function.update_of_ne hq] at hw ⊢
    exact ht.boxed q' hw

theorem Tidy.setQueue (ht : a.Tidy) {xs : List (Pid × Message)}
    (hs : ∀ x ∈ xs, x.2.mSource = x.1) (hn : (xs.map Prod.fst).Nodup) : (a.setQueue q xs).Tidy := by
  refine ⟨fun q' => ?_, fun q' => ?_, ht.boxed⟩
  · by_cases hq : q' = q
    · simpa [hq] using hs
    · simpa [hq] using ht.source q'
  · by_cases hq : q' = q
    · simpa [hq] using hn
    · simpa [hq] using ht.nodup q'

theorem Tidy.push (ht : a.Tidy) (hr : a.Ready p) {m : Message} (hm : m.mSource = p) :
    (a.setQueue q (a.queue q ++ [(p, m)])).Tidy := by
  refine ht.setQueue (fun x hx => ?_) ?_
  · rcases List.mem_append.mp hx with hx | hx
    · exact ht.source q x hx
    · rw [List.mem_singleton.mp hx]
      exact hm
  · rw [List.map_append, List.nodup_append]
    refine ⟨ht.nodup q, by simp, fun y hy z hz => ?_⟩
    obtain ⟨x, hx, rfl⟩ := List.mem_map.mp hy
    simp only [List.map_cons, List.map_nil, List.mem_singleton] at hz
    exact hz ▸ hr.2 q x hx

theorem Tidy.wait (ht : a.Tidy) (hb : a.box p = none) {w : Pid × Message} :
    Tidy { a with waiting := Function.update a.waiting p (some w) } := by
  refine ⟨ht.source, ht.nodup, fun q hw => ?_⟩
  by_cases hq : q = p
  · exact hq ▸ hb
  · simp only [Function.update_of_ne hq] at hw
    exact ht.boxed q hw

theorem Tidy.step (ht : a.Tidy) (h : Step a l b) : b.Tidy := by
  obtain ⟨e, r⟩ := l
  obtain ⟨hal, hnext⟩ := h
  cases e with
  | send p q m =>
    obtain ⟨hr, -⟩ := hal
    simp only [next, Prod.mk.injEq] at hnext
    obtain ⟨-, rfl⟩ := hnext
    split
    · exact ht.deliver
    · exact ht.push hr rfl
  | receive p src m =>
    obtain ⟨-, hbox⟩ := hal
    simp only [next] at hnext
    split at hnext
    · simp only [Prod.mk.injEq] at hnext
      obtain ⟨-, rfl⟩ := hnext
      exact ⟨ht.source, ht.nodup, ht.boxed⟩
    · split at hnext <;> simp only [Prod.mk.injEq] at hnext <;> obtain ⟨-, rfl⟩ := hnext
      · exact ht.setQueue (fun x hx => ht.source p x (List.mem_of_mem_erase hx))
          ((ht.nodup p).sublist (List.erase_sublist.map _))
      · exact ht.wait hbox
  | resume p =>
    simp only [next, Prod.mk.injEq] at hnext
    obtain ⟨-, rfl⟩ := hnext
    refine ⟨ht.source, ht.nodup, fun q hw => ?_⟩
    by_cases hq : q = p
    · simp [hq]
    · simpa [hq] using ht.boxed q hw
  | notify p =>
    simp only [next] at hnext
    split at hnext
    · split at hnext <;> simp only [Prod.mk.injEq] at hnext <;> obtain ⟨-, rfl⟩ := hnext
      · exact ht.deliver
      · exact ⟨ht.source, ht.nodup, ht.boxed⟩
    · simp only [Prod.mk.injEq] at hnext
      obtain ⟨-, rfl⟩ := hnext
      exact ⟨ht.source, ht.nodup, ht.boxed⟩

/-- Over a whole run, what was sent is what was received, in order, with what is still pending
behind it. -/
theorem Step.run {as : List (Event × Option Message)} (h : Run Step a as b) (ht : a.Tidy)
    (hp : p ≠ intrTask) :
    b.Tidy ∧ a.pending p q ++ sent p q as = received p q as ++ b.pending p q := by
  induction h with
  | nil => exact ⟨ht, by simp [sent, received]⟩
  | @cons a c b l as hst hrun ih =>
    obtain ⟨hb, heq⟩ := ih (ht.step hst)
    refine ⟨hb, ?_⟩
    have hs : sent p q (l :: as) = (sentIn p q l).toList ++ sent p q as := by
      unfold sent
      rw [List.filterMap_cons]
      cases sentIn p q l <;> rfl
    have hr : received p q (l :: as) = (receivedIn p q l).toList ++ received p q as := by
      unfold received
      rw [List.filterMap_cons]
      cases receivedIn p q l <;> rfl
    calc a.pending p q ++ sent p q (l :: as)
        = (a.pending p q ++ (sentIn p q l).toList) ++ sent p q as := by rw [hs, List.append_assoc]
      _ = (receivedIn p q l).toList ++ (c.pending p q ++ sent p q as) := by
          rw [hst.pending ht hp, List.append_assoc]
      _ = received p q (l :: as) ++ b.pending p q := by rw [heq, hr, List.append_assoc]

end Mailboxes

end Frog.Ipc
