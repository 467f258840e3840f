import Frog.Timer.Fifo

/-!
# Runs and the order of handlers

Every event keeps the lists in order. So the handlers of two timers with one expiry run in the order
in which the timers were added, except when the later one overtakes the earlier one on its way through
the vectors.
-/

namespace Frog.Timer

set_option autoImplicit false
open Prog

variable {s : State} {a : Agenda} {g : Log} {now t u : Nat} {b : Nat → Nat}
  {due : Nat → Option Nat} {L L' : Nat × Nat → List Node} {Q Q' : List Node} {p p' : Phase}

/-- The lists hold the timers of the agenda. -/
structure Listing (a : Agenda) (p : Phase) (L : Nat × Nat → List Node) (Q : List Node) : Prop where
  linked : ∀ t d, a.due t = some d → (∃ v, .timer t ∈ L v) ∨ .timer t ∈ Q
  node : ∀ x, (∃ v, x ∈ L v) ∨ x ∈ Q → ∃ t d, x = .timer t ∧ a.due t = some d
  empty : p.inside = false → Q = []

/-- A timer that is not due is in no list. -/
theorem Listing.absent (hl : Listing a p L Q) (hd : a.due t = none) :
    (∀ v, .timer t ∉ L v) ∧ .timer t ∉ Q := by
  refine ⟨fun v hv => ?_, fun hm => ?_⟩
  · obtain ⟨u, d, hu, hd'⟩ := hl.node _ (.inl ⟨v, hv⟩)
    cases hu
    cases hd.symm.trans hd'
  · obtain ⟨u, d, hu, hd'⟩ := hl.node _ (.inr hm)
    cases hu
    cases hd.symm.trans hd'

theorem Listing.queued_due (hl : Listing a p L Q) (ht : .timer t ∈ Q) : ∃ d, a.due t = some d := by
  obtain ⟨u, d, hu, hd⟩ := hl.node _ (.inr ht)
  cases hu
  exact ⟨d, hd⟩

theorem Held.wheel (h : Held s a L Q) : ∃ c, Wheel s a.now c a.due L Q := by
  cases h with
  | outside _ ho _ =>
    obtain ⟨⟨c, hw, -⟩, -⟩ := ho
    exact ⟨c, hw⟩
  | inside _ _ hi _ =>
    obtain ⟨c, hw, -⟩ := hi.wheel
    exact ⟨c, hw⟩

theorem Held.listing (h : Held s a L Q) : Listing a s.phase L Q := by
  obtain ⟨c, hw⟩ := h.wheel
  refine ⟨hw.linked, ?_, ?_⟩
  · intro x hx
    obtain ⟨t, rfl, ht⟩ := (hw.mem_iff x).mp hx
    obtain ⟨d, hd⟩ := Option.isSome_iff_exists.mp ht
    exact ⟨t, d, rfl, hd⟩
  · intro hp
    cases h with
    | outside => rfl
    | inside _ hph => rcases hph with hph | ⟨r, hph⟩ <;> rw [hph] at hp <;> cases hp

/-- The links decide what the lists are. -/
theorem Held.unique (h : Held s a L Q) (h' : Held s a L' Q') : L' = L ∧ Q' = Q := by
  obtain ⟨c, hw⟩ := h.wheel
  obtain ⟨c', hw'⟩ := h'.wheel
  refine ⟨funext fun v => (hw'.rings.ring v).unique (hw.rings.ring v), ?_⟩
  cases h with
  | outside _ ho _ =>
    cases h' with
    | outside => rfl
    | inside _ _ hi _ => cases ho.running.symm.trans hi.running
  | inside _ _ hi _ =>
    cases h' with
    | outside _ ho _ => cases ho.running.symm.trans hi.running
    | inside _ _ hi' _ => exact hi'.queue.unique hi.queue

/-! ## The log -/

theorem Log.put_of_ne {since : Nat} {x : BitVec 32} (h : u ≠ t) :
    (g.put t since x).entry u = g.entry u := Function.update_of_ne h ..

theorem Log.put_self {since : Nat} {x : BitVec 32} :
    (g.put t since x).entry t = ⟨g.count, since, x⟩ := Function.update_self ..

theorem Sane.put {since : Nat} {x : BitVec 32} (h : Sane g due)
    (hsince : ∀ u d, due u = some d → (g.entry u).since ≤ since) :
    Sane (g.put t since x) (Function.update due t (some (dueAt since x))) := by
  refine ⟨?_, ?_, ?_⟩
  · intro u d hu
    change ((g.put t since x).entry u).stamp < g.count + 1
    by_cases hut : u = t
    · rw [hut, Log.put_self]
      exact Nat.lt_succ_self _
    · rw [Function.update_of_ne hut] at hu
      rw [Log.put_of_ne hut]
      exact Nat.lt_succ_of_lt (h.fresh u d hu)
  · intro u w d d' hu hw hlt
    by_cases hwt : w = t
    · subst hwt
      by_cases huw : u = w
      · rw [huw]
      · rw [Function.update_of_ne huw] at hu
        rw [Log.put_of_ne huw, Log.put_self]
        exact hsince u d hu
    · rw [Function.update_of_ne hwt] at hw
      rw [Log.put_of_ne hwt] at hlt ⊢
      by_cases hut : u = t
      · rw [hut, Log.put_self] at hlt
        exact absurd (h.fresh w d' hw) (Nat.not_lt.mpr (Nat.le_of_lt hlt))
      · rw [Function.update_of_ne hut] at hu
        rw [Log.put_of_ne hut] at hlt ⊢
        exact h.mono u w d d' hu hw hlt
  · intro u d hu
    by_cases hut : u = t
    · subst hut
      rw [Function.update_self] at hu
      rw [Log.put_self]
      exact (Option.some.inj hu).symm
    · rw [Function.update_of_ne hut] at hu
      rw [Log.put_of_ne hut]
      exact h.due_eq u d hu

theorem due_of_drop {d : Nat} (h : Function.update due t none u = some d) : due u = some d := by
  by_cases hut : u = t
  · rw [hut, Function.update_self] at h
    cases h
  · rwa [Function.update_of_ne hut] at h

theorem Sane.drop (h : Sane g due) : Sane g (Function.update due t none) :=
  ⟨fun u d hu => h.fresh u d (due_of_drop hu),
    fun u w d d' hu hw => h.mono u w d d' (due_of_drop hu) (due_of_drop hw),
    fun u d hu => h.due_eq u d (due_of_drop hu)⟩

/-- The lists of the other timers stay in order when a timer is added. -/
theorem InOrder.log {since d : Nat} {x : BitVec 32} (h : InOrder b now due g L)
    (ht : ∀ v, .timer t ∉ L v) :
    InOrder b now (Function.update due t (some d)) (g.put t since x) L := by
  have hne : ∀ v u, .timer u ∈ L v → u ≠ t := by
    rintro v u hu rfl
    exact ht v hu
  refine ⟨?_, ?_, ?_⟩
  · intro v u e hm hu
    rw [Log.put_of_ne (hne v u hm)]
    exact h.since_le v u e hm (by rwa [Function.update_of_ne (hne v u hm)] at hu)
  · intro v u e hm hu
    rw [Log.put_of_ne (hne v u hm)]
    exact h.ranked v u e hm (by rwa [Function.update_of_ne (hne v u hm)] at hu)
  · intro v
    refine (h.sorted v).imp_of_mem ?_
    intro y z hy hz hyz u w e hyu hzw hu hw
    subst hyu
    subst hzw
    rw [Function.update_of_ne (hne v u hy)] at hu
    rw [Function.update_of_ne (hne v w hz)] at hw
    rw [Before, Log.put_of_ne (hne v u hy), Log.put_of_ne (hne v w hz)]
    exact hyz u w e rfl rfl hu hw

theorem Lined.log {since : Nat} {x : BitVec 32} (h : Lined now g Q) (ht : .timer t ∉ Q) :
    Lined now (g.put t since x) Q := by
  have hne : ∀ u, .timer u ∈ Q → u ≠ t := by
    rintro u hu rfl
    exact ht hu
  refine ⟨?_, ?_⟩
  · intro u hu
    rw [Log.put_of_ne (hne u hu)]
    exact h.since_eq u hu
  · refine h.sorted.imp_of_mem ?_
    intro y z hy hz hyz u w hyu hzw
    subst hyu
    subst hzw
    rw [Log.put_of_ne (hne u hy), Log.put_of_ne (hne w hz)]
    exact hyz u w rfl rfl

/-! ## One event -/

/-- The slots whose time has come have been cascaded in an iteration. -/
def horizon (p : Phase) (now : Nat) : Nat := if p.inside = true then now + 1 else now

/-- The log and the lists fit together. -/
structure Tidy (a : Agenda) (p : Phase) (g : Log) (L : Nat × Nat → List Node) (Q : List Node) :
    Prop where
  sane : Sane g a.due
  inOrder : InOrder (fun _ => horizon p a.now) a.now a.due g L
  lined : Lined a.now g Q

theorem Tidy.since_le (h : Tidy a p g L Q) (hl : Listing a p L Q) {d : Nat} (hd : a.due t = some d) :
    (g.entry t).since ≤ a.now + 1 := by
  rcases hl.linked t d hd with ⟨v, hv⟩ | hm
  · exact Nat.le_succ_of_le (h.inOrder.since_le v t d hv hd)
  · exact Nat.le_of_eq (h.lined.since_eq t hm)

theorem horizon_congr (hp : p'.inside = p.inside) : horizon p' now = horizon p now := by
  rw [horizon, hp, horizon]

/-- Outside of an iteration a timer goes to the slot that its expiry is in. -/
theorem Tidy.put {x : BitVec 32} {v : Nat × Nat} (h : Tidy a p g L Q) (hl : Listing a p L Q)
    (hp : p'.inside = p.inside) (hpo : p.inside = false) (hd : a.due t = none)
    (hfirst : a.first p = a.now) (hlev : Level a.now (dueAt a.now x) v.1) :
    Tidy (a.put t (dueAt (a.first p) x)) p' (g.put t (a.first p) x) (behind L t v) Q := by
  obtain ⟨hs, ho, hq⟩ := h
  obtain ⟨hL, hQ⟩ := hl.absent hd
  have hz : horizon p a.now = a.now := if_neg (by simp [hpo])
  have hle : ∀ u d, a.due u = some d → (g.entry u).since ≤ a.first p := by
    intro u d hu
    rcases hl.linked u d hu with ⟨w, hw⟩ | hm
    · rw [hfirst]
      exact ho.since_le w u d hw hu
    · rw [hl.empty hpo] at hm
      cases hm
  refine ⟨hs.put hle, ?_, hq.log hQ⟩
  change InOrder (fun _ => horizon p' a.now) a.now (Function.update a.due t _) _ _
  have hrest : InOrder _ _ _ (g.put t (a.first p) x) _ := ho.log (d := dueAt (a.first p) x) hL
  rw [hz] at hrest
  rw [horizon_congr hp, hz]
  refine hrest.put (Function.update_self ..) ?_ ?_ ?_
  · rw [Log.put_self]
    exact hfirst
  · intro w u d hm hu
    have hut : u ≠ t := by
      rintro rfl
      exact hL w hm
    rw [Function.update_of_ne hut] at hu
    rw [Log.put_self, Log.put_of_ne hut]
    exact Nat.le_of_lt (hs.fresh u d hu)
  · rwa [hfirst]

/-- In an iteration a timer goes to the end of `queued`. -/
theorem Tidy.queue {x : BitVec 32} (h : Tidy a p g L Q) (hl : Listing a p L Q)
    (hp : p'.inside = p.inside) (hd : a.due t = none) (hfirst : a.first p = a.now + 1) :
    Tidy (a.put t (dueAt (a.first p) x)) p' (g.put t (a.first p) x) L (Q ++ [.timer t]) := by
  have hsince : ∀ u d, a.due u = some d → (g.entry u).since ≤ a.first p :=
    fun u d hu => hfirst ▸ h.since_le hl hu
  obtain ⟨hs, ho, hq⟩ := h
  obtain ⟨hL, hQ⟩ := hl.absent hd
  refine ⟨hs.put hsince, ?_, ?_, ?_⟩
  · change InOrder (fun _ => horizon p' a.now) a.now (Function.update a.due t _) _ _
    rw [horizon_congr hp]
    exact ho.log hL
  · intro u hu
    rcases List.mem_append.mp hu with hu | hu
    · exact (hq.log hQ).since_eq u hu
    · cases List.mem_singleton.mp hu
      rw [Log.put_self]
      exact hfirst
  · rw [List.pairwise_append]
    refine ⟨(hq.log hQ).sorted, List.pairwise_singleton .., ?_⟩
    intro y hy z hz u w hyu hzw
    obtain rfl := List.mem_singleton.mp hz
    cases hzw
    subst hyu
    have hut : u ≠ t := by
      rintro rfl
      exact hQ hy
    obtain ⟨d, hdu⟩ := hl.queued_due hy
    rw [Log.put_self, Log.put_of_ne hut]
    exact hs.fresh u d hdu

/-- At the end of an iteration the timers of `queued` go behind those of their slots. -/
theorem Tidy.finish (h : Tidy a p g L Q) (hl : Listing a p L Q) (hz : horizon p a.now = a.now + 1)
    (hset : Settled (a.now + 1) a.due Q L L') :
    InOrder (fun _ => a.now + 1) (a.now + 1) a.due g L' := by
  obtain ⟨hs, ho, hq⟩ := h
  rw [hz] at ho
  have hnext : InOrder (fun _ => a.now + 1) (a.now + 1) a.due g L :=
    ⟨fun v t d hm hd => Nat.le_succ_of_le (ho.since_le v t d hm hd), ho.ranked, ho.sorted⟩
  refine hset.inOrder hnext hq.since_eq hq.sorted ?_
  intro v u d t hu hdu ht
  refine Nat.le_of_not_lt fun hlt => ?_
  obtain ⟨d', hdt⟩ := hl.queued_due ht
  have h1 := hs.mono t u d' d hdt hdu hlt
  have h2 := hq.since_eq t ht
  have h3 := ho.since_le v u d hu hdu
  omega

theorem Turn.tidy {e : Event} (ht : Turn a L Q e p p' L' Q') (hl : Listing a p L Q)
    (h : Tidy a p g L Q) : Tidy (a.after p e p') p' (g.after a p e) L' Q' := by
  have hafter : ∀ t x, a.due t = none → a.after p (.add t x) p' = a.put t (dueAt (a.first p) x) :=
    fun t x hd => if_pos hd
  have hlog : ∀ t x, a.due t = none → g.after a p (.add t x) = g.put t (a.first p) x :=
    fun t x hd => if_pos hd
  cases ht with
  | keep hp hadd hnow hdue =>
    have hsame : g.after a p e = g := by
      cases e with
      | add t x => exact if_neg (hadd t x rfl)
      | del | tick | bh | go | ret => rfl
    obtain ⟨hs, ho, hq⟩ := h
    rw [hsame]
    refine ⟨?_, ?_, ?_⟩
    · rwa [hdue]
    · rw [hnow, hdue, horizon_congr hp]
      exact ho
    · rwa [hnow]
  | @put t x _ _ v hp hpo hd hfirst hlev =>
    rw [hafter t x hd, hlog t x hd]
    exact h.put hl hp hpo hd hfirst hlev
  | @queue t x _ _ hp hpi hd hfirst =>
    rw [hafter t x hd, hlog t x hd]
    exact h.queue hl hp hd hfirst
  | @remove t _ _ _ _ hp hL hQ =>
    obtain ⟨hs, ho, hq⟩ := h
    refine ⟨hs.drop, ?_, fun u hu => hq.since_eq u (hQ.subset hu), hq.sorted.sublist hQ⟩
    change InOrder (fun _ => horizon p' a.now) a.now (Function.update a.due t none) g _
    rw [horizon_congr hp]
    exact ho.sublist hL fun u d hu => due_of_drop hu
  | start hcasc =>
    obtain ⟨hs, ho, hq⟩ := h
    refine ⟨hs, hcasc.inOrder hs (ho.mono fun m _ => ?_), hq⟩
    change a.now ≤ passed a.now 1 m
    unfold passed
    split <;> omega
  | @call t xs hL =>
    obtain ⟨hs, ho, hq⟩ := h
    refine ⟨hs.drop, ?_, hq⟩
    change InOrder (fun _ => a.now + 1) a.now (Function.update a.due t none) g _
    have hL' : L (0, a.now % 256) = [] ++ .timer t :: xs := hL
    exact ho.sublist (update_sublist hL') fun u d hu => due_of_drop hu
  | finish hset =>
    exact ⟨h.sane, h.finish hl rfl hset, ⟨fun t ht => (nomatch ht), .nil⟩⟩

/-! ## Runs -/

/-- The timers of the wheel are those of the agenda, and their lists are in order. -/
structure Ordered (x : Logged) : Prop where
  agrees : Agrees x.1.1 x.1.2
  tidy : ∃ L Q, Held x.1.1 x.1.2 L Q ∧ Tidy x.1.2 x.1.1.phase x.2 L Q

theorem Ordered.init (expires : Nat → BitVec 32) : Ordered ((.init expires, .init), .init) := by
  have h := Agrees.init expires
  obtain ⟨-, -, L, Q, hheld⟩ := id h
  have hl := hheld.listing
  have hL : ∀ v, L v = [] := by
    intro v
    refine List.eq_nil_iff_forall_not_mem.mpr fun x hx => ?_
    obtain ⟨t, d, -, hd⟩ := hl.node x (.inl ⟨v, hx⟩)
    cases hd
  have hQ : Q = [] := hl.empty rfl
  subst hQ
  refine ⟨h, L, [], hheld, ⟨fun _ _ hd => (nomatch hd), fun _ _ _ _ hd => (nomatch hd),
    fun _ _ hd => (nomatch hd)⟩, ⟨fun _ _ _ _ hd => (nomatch hd), fun _ _ _ _ hd => (nomatch hd),
    fun v => ?_⟩, ⟨fun _ ht => (nomatch ht), .nil⟩⟩
  rw [hL]
  exact .nil

theorem Tracked.ordered {x y : Logged} {e : Event} (h : Ordered x) (hw : Tracked x e y) :
    Ordered y := by
  obtain ⟨ha, L, Q, hheld, htidy⟩ := h
  obtain ⟨⟨⟨he, fuel, hrun⟩, hy⟩, hg⟩ := hw
  obtain ⟨hagrees, L₁, Q₁, L', Q', h1, h', hturn⟩ :=
    (wp_of_ok hrun).mp (wp_event ha he ha.enough)
  obtain ⟨rfl, rfl⟩ := hheld.unique h1
  rw [← hy] at hagrees h'
  refine ⟨hagrees, L', Q', h', ?_⟩
  rw [hg, hy]
  exact hturn.tidy hheld.listing htidy

theorem Tracked.run_ordered {x y : Logged} {es : List Event} (h : Run Tracked x es y)
    (hx : Ordered x) : Ordered y :=
  h.invariant (I := Ordered) (fun _ _ _ hi hw => hw.ordered hi) hx

/-! ## Handlers -/

theorem dueAt_lt (now : Nat) (e : BitVec 32) : dueAt now e < now + 2 ^ 31 := by
  unfold dueAt
  split
  · exact Nat.lt_add_of_pos_right (by decide)
  · rename_i h
    rw [slt_zero_iff] at h
    omega

/-- A timer that is called stands before all others that are due in the iteration. -/
theorem Ordered.call {x : Logged} {y : State} {r o : Nat} (h : Ordered x) (hs : Step x.1.1 .go y)
    (hc : y.phase = .handler r) (ho : x.1.2.due o = some x.1.2.now) (hne : o ≠ r) :
    x.1.2.due r = some x.1.2.now ∧ Before x.2 x.1.2.now r o := by
  obtain ⟨ha, L, Q, hheld, htidy⟩ := h
  have hcalled := ha.onTime.called y r hs hc
  obtain ⟨he, fuel, hrun⟩ := hs
  obtain ⟨-, L₁, Q₁, L', Q', h1, -, hturn⟩ := (wp_of_ok hrun).mp (wp_event ha he ha.enough)
  obtain ⟨rfl, rfl⟩ := hheld.unique h1
  refine ⟨hcalled, ?_⟩
  rw [hc] at hturn
  generalize hp : x.1.1.phase = p at hturn
  cases hturn with
  | keep hin _ _ hdue =>
    -- only a call empties the entry of `r`
    rcases he with hl | hl <;> cases hp.symm.trans hl
    · cases hin
    · have hdrop : (x.1.2.drop r).due r = x.1.2.due r := congrFun hdue r
      change Function.update x.1.2.due r none r = _ at hdrop
      rw [Function.update_self, hcalled] at hdrop
      cases hdrop
  | @call _ xs hL =>
    cases hheld with
    | outside hph => rcases hph with hph | hph <;> rw [hp] at hph <;> cases hph
    | inside _ _ hi _ =>
      have hm := hi.mem_of_due ho
      have hsorted := htidy.inOrder.sorted (0, x.1.2.now % 256)
      rw [hL] at hm hsorted
      have hxs := (List.mem_cons.mp hm).resolve_left fun he => hne (Node.timer.inj he)
      exact (List.pairwise_cons.mp hsorted).1 _ hxs r o _ rfl rfl hcalled ho

/-- Timers with one expiry that were added in time are due in one iteration. -/
theorem Ordered.due_eq {x : Logged} {r o : Nat} (h : Ordered x) (hr : InTime x r) (ho : InTime x o)
    (hsame : (x.2.entry r).expires = (x.2.entry o).expires) (hd : x.1.2.due r = some x.1.2.now) :
    x.1.2.due o = some x.1.2.now := by
  obtain ⟨-, L, Q, hheld, htidy⟩ := h
  obtain ⟨d, hdr, hr⟩ := hr
  obtain ⟨d', hdo, ho⟩ := ho
  cases hd.symm.trans hdr
  have hge := hheld.due_le hdo
  have hle := htidy.since_le hheld.listing hdo
  have hlt := dueAt_lt (x.2.entry o).since (x.2.entry o).expires
  rw [← htidy.sane.due_eq o d' hdo] at hlt
  have hmod : x.1.2.now % 2 ^ 32 = d' % 2 ^ 32 := by
    have hnat := congrArg BitVec.toNat (hr.trans (hsame.trans ho.symm))
    rwa [BitVec.toNat_ofNat, BitVec.toNat_ofNat] at hnat
  rw [hdo]
  exact congrArg some (by omega)

/-- Of two rivals the one that was added first is called first, unless it was overtaken. -/
theorem Ordered.called_iff {x : Logged} {y : State} (h : Ordered x) (hr : Rivals x t u)
    (hs : Step x.1.1 .go y) (hc : y.phase = .handler t ∨ y.phase = .handler u) :
    y.phase = .handler t ↔ ¬ Overtaken x.1.2.now (x.2.entry t).since (x.2.entry u).since := by
  obtain ⟨hta, hua, hsame, horder⟩ := hr
  have hne : t ≠ u := by
    rintro rfl
    exact Nat.lt_irrefl _ horder
  rcases hc with hc | hc
  · have hd := h.agrees.onTime.called y t hs hc
    have hb := h.call hs hc (h.due_eq hta hua hsame hd) hne.symm
    exact iff_of_true hc (hb.2.1 horder)
  · have hd := h.agrees.onTime.called y u hs hc
    have hb := h.call hs hc (h.due_eq hua hta hsame.symm hd) hne
    refine iff_of_false (fun ht => ?_) (fun hn => hn (hb.2.2 horder))
    rw [hc] at ht
    exact hne (Phase.handler.inj ht).symm

/-- In every run, the handlers of two timers that were added in time with one expiry run in the order
in which the timers were added exactly when the later one has not overtaken the other. -/
theorem fifo_iff {expires : Nat → BitVec 32} {es : List Event} {x : Logged} {y : State}
    (h : Run Tracked ((.init expires, .init), .init) es x) (hr : Rivals x t u)
    (hs : Step x.1.1 .go y) (hc : y.phase = .handler t ∨ y.phase = .handler u) :
    y.phase = .handler t ↔ ¬ Overtaken x.1.2.now (x.2.entry t).since (x.2.entry u).since :=
  (Tracked.run_ordered h (.init expires)).called_iff hr hs hc

/-! ## An overtaking -/

section Overtaking
variable {x : Logged} {e : Event}

theorem Ordered.live (h : Ordered x) (he : Enabled x.1.1 e) : ∃ y, Tracked x e y := by
  obtain ⟨s', hs⟩ := h.agrees.onTime.live e he
  exact ⟨((s', x.1.2.after x.1.1.phase e s'.phase), x.2.after x.1.2 x.1.1.phase e), ⟨hs, rfl⟩, rfl⟩

/-- A step of the clock or of `run_timer_list` in which no handler is called. -/
structure Passed (x y : Logged) (p : Phase) (now ticks : Nat) : Prop where
  reached : ∃ es, Run Tracked x es y
  ordered : Ordered y
  phase : y.1.1.phase = p
  now_eq : y.1.2.now = now
  ticks_eq : y.1.2.ticks = ticks
  due_eq : y.1.2.due = x.1.2.due
  log_eq : y.2 = x.2

theorem Passed.trans {y z : Logged} {p p' : Phase} {n n' k k' : Nat} (h : Passed x y p n k)
    (h' : Passed y z p' n' k') : Passed x z p' n' k' := by
  obtain ⟨es, hes⟩ := h.reached
  obtain ⟨es', hes'⟩ := h'.reached
  exact ⟨⟨es ++ es', hes.append hes'⟩, h'.ordered, h'.phase, h'.now_eq, h'.ticks_eq,
    h'.due_eq.trans h.due_eq, h'.log_eq.trans h.log_eq⟩

theorem Ordered.tick (h : Ordered x) (hp : x.1.1.phase = .idle)
    (hn : x.1.2.now = x.1.2.ticks + 1) :
    ∃ y, Passed x y .idle x.1.2.now (x.1.2.ticks + 1) := by
  have hguard : x.1.1.ticks - x.1.1.timerJiffies ≠ 0x7fffffff := by
    rw [h.agrees.onTime.clock, h.agrees.onTime.jiffies, hn, BitVec.ofNat_add, sub_add_cancel_left]
    decide
  obtain ⟨y, hy⟩ := h.live (e := .tick) ⟨hp, hguard⟩
  have hordered := hy.ordered h
  obtain ⟨⟨⟨-, fuel, hrun⟩, ha⟩, hg⟩ := id hy
  have hphase : y.1.1.phase = x.1.1.phase := by
    rw [← (Prod.mk.inj (Except.ok.inj hrun)).2]
  exact ⟨y, ⟨_, .single hy⟩, hordered, hphase.trans hp, by rw [ha]; rfl, by rw [ha]; rfl,
    by rw [ha]; rfl, hg⟩

theorem Ordered.begin (h : Ordered x) (hp : x.1.1.phase = .idle) (hn : x.1.2.now ≤ x.1.2.ticks) :
    ∃ y, Passed x y .serve x.1.2.now x.1.2.ticks := by
  obtain ⟨y, hy⟩ := h.live (e := .bh) hp
  have hoy := hy.ordered h
  obtain ⟨⟨⟨-, fuel, hrun⟩, ha⟩, hg⟩ := id hy
  have hphase : y.1.1.phase = .loop := by
    rw [← (Prod.mk.inj (Except.ok.inj hrun)).2]
    rfl
  have hsame : y.1.2 = x.1.2 := ha
  obtain ⟨z, hz⟩ := hoy.live (e := .go) (.inl hphase)
  obtain ⟨⟨⟨-, fuel', hrun'⟩, ha'⟩, hg'⟩ := id hz
  have hserve : z.1.1.phase = .serve := by
    obtain ⟨-, ⟨-, hlt⟩ | hph⟩ :=
      (wp_of_ok hrun').mp (wp_loop hoy.agrees hphase hoy.agrees.enough)
    · rw [hsame] at hlt
      exact absurd hlt (Nat.not_lt.mpr hn)
    · exact hph
  have hsame' : z.1.2 = x.1.2 := by
    rw [ha', hphase, hserve, hsame]
    rfl
  exact ⟨z, ⟨_, (Run.single hy).append (.single hz)⟩, hz.ordered hoy, hserve,
    congrArg Agenda.now hsame', congrArg Agenda.ticks hsame', congrArg Agenda.due hsame',
    hg'.trans hg⟩

theorem Ordered.finish (h : Ordered x) (hp : x.1.1.phase = .serve) (hn : x.1.2.now = x.1.2.ticks)
    (hd : ∀ t, x.1.2.due t ≠ some x.1.2.now) :
    ∃ y, Passed x y .idle (x.1.2.now + 1) x.1.2.ticks := by
  obtain ⟨y, hy⟩ := h.live (e := .go) (.inr hp)
  have hoy := hy.ordered h
  obtain ⟨⟨⟨-, fuel, hrun⟩, ha⟩, hg⟩ := id hy
  have hphase : y.1.1.phase = .loop := by
    obtain ⟨-, ⟨t, -, hdt, -⟩ | ⟨hph, -⟩⟩ :=
      (wp_of_ok hrun).mp (wp_serve h.agrees hp h.agrees.enough)
    · exact absurd hdt (hd t)
    · exact hph
  have hnext : y.1.2 = { x.1.2 with now := x.1.2.now + 1 } := by
    rw [ha, hp, hphase]
    rfl
  obtain ⟨z, hz⟩ := hoy.live (e := .go) (.inl hphase)
  have hoz := hz.ordered hoy
  obtain ⟨⟨⟨-, fuel', hrun'⟩, ha'⟩, hg'⟩ := id hz
  have hidle : z.1.1.phase = .idle ∧ z.1.2 = y.1.2 := by
    obtain ⟨-, ⟨hph, -⟩ | hph⟩ :=
      (wp_of_ok hrun').mp (wp_loop hoy.agrees hphase hoy.agrees.enough)
    · refine ⟨hph, ?_⟩
      rw [ha', hphase]
      rfl
    · -- an iteration that has caught up does not begin
      have hsame : z.1.2 = y.1.2 := by
        rw [ha', hphase, hph]
        rfl
      obtain ⟨L, Q, hheld⟩ := hoz.agrees.held
      cases hheld with
      | outside hp' => rcases hp' with hp' | hp' <;> rw [hph] at hp' <;> cases hp'
      | inside _ _ _ hle =>
        rw [hsame, hnext] at hle
        exact absurd hle (by simp [hn])
  have hz2 : z.1.2 = { x.1.2 with now := x.1.2.now + 1 } := hidle.2.trans hnext
  exact ⟨z, ⟨_, (Run.single hy).append (.single hz)⟩, hoz, hidle.1,
    by rw [hz2], by rw [hz2], by rw [hz2], hg'.trans hg⟩

/-- The ticks up to one before the first timer is due. -/
theorem Ordered.wait {k : Nat} (h : Ordered x) (hp : x.1.1.phase = .idle)
    (hn : x.1.2.now = x.1.2.ticks + 1)
    (hd : ∀ t d, x.1.2.due t = some d → x.1.2.now + k ≤ d) :
    ∃ y, Passed x y .idle (x.1.2.now + k) (x.1.2.ticks + k) := by
  induction k with
  | zero => exact ⟨x, ⟨[], .nil x⟩, h, hp, rfl, rfl, rfl, rfl⟩
  | succ k ih =>
    obtain ⟨y, hy⟩ := ih fun t d ht => Nat.le_of_succ_le (hd t d ht)
    obtain ⟨y₁, h1⟩ := hy.ordered.tick hy.phase (by rw [hy.now_eq, hy.ticks_eq, hn]; omega)
    obtain ⟨y₂, h2⟩ := h1.ordered.begin h1.phase (by
      rw [h1.now_eq, h1.ticks_eq, hy.now_eq, hy.ticks_eq, hn]
      omega)
    have h3 := (hy.trans h1).trans h2
    obtain ⟨y₃, h4⟩ := h2.ordered.finish h2.phase (by
      rw [h2.now_eq, h2.ticks_eq, h1.now_eq, h1.ticks_eq, hy.now_eq, hy.ticks_eq, hn]
      omega) (by
      intro t ht
      rw [h3.due_eq, h2.now_eq, h1.now_eq, hy.now_eq] at ht
      have := hd t _ ht
      omega)
    have h5 := h3.trans h4
    refine ⟨y₃, ?_⟩
    rwa [h2.now_eq, h1.now_eq, hy.now_eq, h2.ticks_eq, h1.ticks_eq, hy.ticks_eq] at h5

theorem Ordered.add {e : BitVec 32} (h : Ordered x) (hp : x.1.1.phase = .idle)
    (hd : x.1.2.due t = none) : ∃ y, Tracked x (.add t e) y ∧ Ordered y ∧ y.1.1.phase = .idle ∧
      y.1.2 = x.1.2.put t (dueAt x.1.2.now e) ∧ y.2 = x.2.put t x.1.2.now e := by
  obtain ⟨y, hy⟩ := h.live (e := .add t e) (.inl hp)
  obtain ⟨⟨⟨he, fuel, hrun⟩, ha⟩, hg⟩ := id hy
  have hphase := ((wp_of_ok hrun).mp (wp_add (E := fun _ => True) h.agrees he)).1
  refine ⟨y, hy, hy.ordered h, hphase.trans hp, ?_, ?_⟩
  · rw [ha, hp]
    exact if_pos hd
  · rw [hg, hp]
    exact if_pos hd

end Overtaking

/-- A timer added 256 ticks ahead and one added a tick later for the same tick, at that tick. -/
theorem rivals_reached : ∃ es x y, Run Tracked ((.init fun _ => 0, .init), .init) es x ∧
    Rivals x 0 1 ∧ x.1.2.now = 256 ∧ (x.2.entry 0).since = 0 ∧ (x.2.entry 1).since = 1 ∧
    Step x.1.1 .go y ∧ (y.phase = .handler 0 ∨ y.phase = .handler 1) := by
  obtain ⟨x₁, hw₁, h₁, hp₁, ha₁, hg₁⟩ :=
    (Ordered.init fun _ => 0).add (t := 0) (e := 256) rfl rfl
  have hdue₁ : ∀ t d, x₁.1.2.due t = some d → t = 0 ∧ d = 256 := by
    intro t d ht
    rw [ha₁] at ht
    by_cases h0 : t = 0
    · subst h0
      exact ⟨rfl, (Option.some.inj ht).symm⟩
    · change Function.update _ 0 _ t = _ at ht
      rw [Function.update_of_ne h0] at ht
      cases ht
  obtain ⟨x₂, h₂⟩ := h₁.begin hp₁ (by rw [ha₁]; decide)
  obtain ⟨x₃, h₃⟩ := h₂.ordered.finish h₂.phase (by rw [h₂.now_eq, h₂.ticks_eq, ha₁]; rfl) (by
    intro t ht
    rw [h₂.due_eq, h₂.now_eq, ha₁] at ht
    cases (hdue₁ t _ (by rw [ha₁]; exact ht)).2)
  have h₁₃ : Passed x₁ x₃ .idle 1 0 := by
    have h := h₂.trans h₃
    rw [h₂.now_eq, h₂.ticks_eq, ha₁] at h
    exact h
  obtain ⟨x₄, hw₄, h₄, hp₄, ha₄, hg₄⟩ := h₁₃.ordered.add (t := 1) (e := 256) h₁₃.phase (by
    rw [h₁₃.due_eq, ha₁]
    rfl)
  rw [h₁₃.now_eq] at ha₄ hg₄
  have hdue₄ : ∀ t d, x₄.1.2.due t = some d → (t = 0 ∨ t = 1) ∧ d = 256 := by
    intro t d ht
    rw [ha₄] at ht
    by_cases h1 : t = 1
    · subst h1
      exact ⟨.inr rfl, (Option.some.inj ht).symm⟩
    · change Function.update _ 1 _ t = _ at ht
      rw [Function.update_of_ne h1, h₁₃.due_eq] at ht
      exact (hdue₁ t d ht).imp_left .inl
  have hnow₄ : x₄.1.2.now = 1 ∧ x₄.1.2.ticks = 0 := by
    rw [ha₄]
    exact ⟨h₁₃.now_eq, h₁₃.ticks_eq⟩
  obtain ⟨x₅, h₅⟩ := h₄.wait (k := 255) hp₄ (by rw [hnow₄.1, hnow₄.2]) (by
    intro t d ht
    rw [hnow₄.1, (hdue₄ t d ht).2])
  obtain ⟨x₆, h₆⟩ := h₅.ordered.tick h₅.phase (by
    rw [h₅.now_eq, h₅.ticks_eq, hnow₄.1, hnow₄.2])
  obtain ⟨x₇, h₇⟩ := h₆.ordered.begin h₆.phase (by
    rw [h₆.now_eq, h₆.ticks_eq, h₅.now_eq, h₅.ticks_eq, hnow₄.1, hnow₄.2])
  have h₄₇ := (h₅.trans h₆).trans h₇
  have hnow : x₇.1.2.now = 256 := by
    rw [h₇.now_eq, h₆.now_eq, h₅.now_eq, hnow₄.1]
  have hlog : x₇.2 = (Log.init.put 0 0 256).put 1 1 256 := by
    rw [h₄₇.log_eq, hg₄, h₁₃.log_eq, hg₁]
    rfl
  have hd0 : x₇.1.2.due 0 = some 256 := by
    rw [h₄₇.due_eq, ha₄]
    change Function.update x₃.1.2.due 1 (some (dueAt 1 256)) 0 = _
    rw [Function.update_of_ne (show (0 : Nat) ≠ 1 by decide), h₁₃.due_eq, ha₁]
    rfl
  have hd1 : x₇.1.2.due 1 = some 256 := by
    rw [h₄₇.due_eq, ha₄]
    rfl
  obtain ⟨es₁₃, hr₁₃⟩ := h₁₃.reached
  obtain ⟨es₄₇, hr₄₇⟩ := h₄₇.reached
  obtain ⟨y, hy⟩ := h₄₇.ordered.live (e := .go) (.inr h₄₇.phase)
  obtain ⟨⟨hs, -⟩, -⟩ := hy
  obtain ⟨-, fuel, hrun⟩ := id hs
  refine ⟨_, x₇, y.1.1, ((Run.single hw₁).append hr₁₃).append (.cons hw₄ hr₄₇),
    ⟨⟨256, hd0, ?_⟩, ⟨256, hd1, ?_⟩, ?_, ?_⟩, hnow, ?_, ?_, hs, ?_⟩
  · rw [hlog]
    rfl
  · rw [hlog]
    rfl
  · rw [hlog]
    rfl
  · rw [hlog]
    decide
  · rw [hlog]
    rfl
  · rw [hlog]
    rfl
  · obtain ⟨-, ⟨t, hph, hdt, -⟩ | ⟨-, -, hnone⟩⟩ :=
      (wp_of_ok hrun).mp (wp_serve h₄₇.ordered.agrees h₄₇.phase h₄₇.ordered.agrees.enough)
    · rw [h₄₇.due_eq] at hdt
      rcases (hdue₄ t _ hdt).1 with rfl | rfl
      · exact .inl hph
      · exact .inr hph
    · rw [← hnow] at hd0
      exact absurd hd0 (hnone 0)

/-- The timer that was added first is called second. -/
theorem later_called_first : ∃ es x y, Run Tracked ((.init fun _ => 0, .init), .init) es x ∧
    Rivals x 0 1 ∧ Step x.1.1 .go y ∧ y.phase = .handler 1 := by
  obtain ⟨es, x, y, hrun, hr, hnow, h0, h1, hs, hc⟩ := rivals_reached
  refine ⟨es, x, y, hrun, hr, hs, hc.resolve_left fun hfirst => ?_⟩
  have hnot := ((Tracked.run_ordered hrun (.init _)).called_iff hr hs (.inl hfirst)).mp hfirst
  rw [hnow, h0, h1] at hnot
  exact hnot ⟨1, by decide, by decide, by decide, by decide, by decide⟩

theorem fifo_rivals : ∃ (x : Logged) (y : State), Rivals x 0 1 ∧ (y.phase = .handler 0 ↔
    ¬ Overtaken x.1.2.now (x.2.entry 0).since (x.2.entry 1).since) := by
  obtain ⟨es, x, y, hrun, hr, -, -, -, hs, hc⟩ := rivals_reached
  exact ⟨x, y, hr, fifo_iff hrun hr hs hc⟩

end Frog.Timer
