import Frog.Device.IdeInside

/-!
# Runs of a channel

However the threads, the drive and the interrupts interleave, the accesses to the sectors are those
of an atomic disk in one order, and a call gets its own of them.
-/

namespace Frog.Ide

set_option autoImplicit false
open Bytes

/-- What holds in every state of a run that began with `m` on the disks. -/
structure Inv (m : Media) (s : State) : Prop where
  run : Run Atomic m s.log s.drive.media
  done : ∀ x ∈ s.returned, x.Served s.log
  calm : s.halted ≠ some .semaphore
  held : s.halted = none → Held s

section Steps
variable {m : Media} {s u : State} {t v : Tid} {c : Call} {k : Nat} {status : Byte}

theorem Held.user (h : Held s) (hp : s.pc t = .user) : s.holder ≠ some t := by
  intro hh
  have hin := h.inside t hh
  rw [hp] at hin
  cases hin

theorem Held.free_irq (h : Held s) (hq : s.irq.pending = true) : s.holder ≠ none := by
  intro hn
  rw [(h.free hn).2] at hq
  cases hq

theorem Held.fill {b : Store} (h : Held s) (hp : s.pc t = .user) : Held (s.fill t b) := by
  refine ⟨h.free, fun v hv => ?_, fun v hv => ?_⟩
  · by_cases hvt : v = t
    · subst hvt
      change Outside v s.log _ (s.pc v)
      rw [hp]
      exact .user
    · change Outside v s.log (Function.update s.buf t b v) (s.pc v)
      rw [Function.update_of_ne hvt]
      exact h.outside v hv
  · have hvt : v ≠ t := by
      rintro rfl
      exact h.user hp hv
    change Inside v s.log s.drive s.irq (Function.update s.buf t b v) (s.pc v)
    rw [Function.update_of_ne hvt]
    exact h.inside v hv

/-- A thread outside the lock changes its place. -/
theorem Held.goto (h : Held s) (ht : s.holder ≠ some t) {p : Pc} (hp : Outside t s.log (s.buf t) p) :
    Held { s with pc := Function.update s.pc t p } := by
  refine ⟨h.free, fun v hv => ?_, fun v hv => ?_⟩
  · by_cases hvt : v = t
    · subst hvt
      simpa using hp
    · simpa [hvt] using h.outside v hv
  · have hvt : v ≠ t := by
      rintro rfl
      exact ht hv
    simpa [hvt] using h.inside v hv

theorem Held.next (h : Held s) (hh : s.holder = some t) (hn : Next s t u) : Held u := by
  obtain ⟨hm, hnext⟩ := hn
  have hout : ∀ v, v ≠ t → Outside v u.log (u.buf v) (u.pc v) := fun v hv => by
    rw [hm.log, hm.buf v hv, hm.pc v hv]
    exact h.outside v (by rw [hh]; exact fun hx => hv (Option.some.inj hx).symm)
  rcases hnext with ⟨hu, hin⟩ | ⟨hu, hi, hq, ho⟩
  · refine ⟨fun hx => ?_, fun v hv => hout v fun he => hv (he ▸ hu), fun v hv => ?_⟩
    · rw [hu] at hx
      cases hx
    · obtain rfl : t = v := Option.some.inj (hu.symm.trans hv)
      exact hin
  · refine ⟨fun _ => ⟨hi, hq⟩, fun v _ => ?_, fun v hv => ?_⟩
    · by_cases hvt : v = t
      · subst hvt
        exact ho
      · exact hout v hvt
    · rw [hu] at hv
      cases hv

theorem served (hp : Plain t c k (s.buf t)) (hr : Round c k) (hl : Logged c s.log)
    (h0 : c.curCnt = 0) : Done.Served ⟨t, c, s.buf t, s.log.length⟩ s.log := by
  have hk : k = c.secCnt := by
    have := hr.cnt
    omega
  refine ⟨hr.pos, hk ▸ hp.made, hp.buf, hl.start, Nat.le_refl _, ?_⟩
  rw [List.take_length]
  exact hl.sub

/-- What a thread outside the lock does. -/
theorem Outside.advance (ho : Outside t s.log (s.buf t) (s.pc t)) (h : s.advance t status = some u) :
    u = s.halt .lba ∨ (∃ p, Outside t s.log (s.buf t) p ∧ u = { s with pc := Function.update s.pc t p }) ∨
      (∃ c, Done.Served ⟨t, c, s.buf t, s.log.length⟩ s.log ∧ u = s.finish t c) ∨
      (∃ c k, Plain t c k (s.buf t) ∧ Round c k ∧ Logged c s.log ∧ c.curCnt ≠ 0 ∧ s.holder = none ∧
        u = { s with holder := some t }.goto t c .selectDisk) := by
  unfold State.advance at h
  generalize s.pc t = p at ho h
  cases ho with
  | user => cases h
  | enter c hp hr hl =>
    simp only at h
    split at h <;> cases h
    · rename_i hpos
      exact .inr (.inl ⟨_, .loop c 0 hp (hr hpos.2) hl, rfl⟩)
    · exact .inl rfl
  | loop c k hp hr hl =>
    simp only at h
    split at h <;> cases h
    · rename_i h0
      exact .inr (.inr (.inl ⟨c, served hp hr hl h0, rfl⟩))
    · rename_i h0
      exact .inr (.inl ⟨_, .fetch c k hp hr hl h0, rfl⟩)
  | fetch c k hp hr hl h0 =>
    simp only at h
    split at h <;> cases h
    rename_i hn
    exact .inr (.inr (.inr ⟨c, k, hp, hr, hl, h0, hn, rfl⟩))

theorem Held.fetch (h : Held s) (hn : s.holder = none) (hp : Plain t c k (s.buf t)) (hr : Round c k)
    (hl : Logged c s.log) (h0 : c.curCnt ≠ 0) :
    Held ({ s with holder := some t }.goto t c .selectDisk) := by
  obtain ⟨hi, hq⟩ := h.free hn
  refine ⟨nofun, fun v hv => ?_, fun v hv => ?_⟩
  · have hvt : v ≠ t := by
      rintro rfl
      exact hv rfl
    change Outside v s.log (s.buf v) (Function.update s.pc t _ v)
    rw [Function.update_of_ne hvt]
    exact h.outside v (by rw [hn]; exact nofun)
  · obtain rfl : t = v := Option.some.inj hv
    change Inside t s.log s.drive s.irq (s.buf t) (Function.update s.pc t _ t)
    rw [Function.update_self]
    exact .mk c k _ hr h0 hl (.selectDisk hp hi hq)

theorem Inv.halt {p : Panic} (h : Inv m s) (hp : p ≠ .semaphore) : Inv m (s.halt p) :=
  ⟨h.run, h.done, fun he => hp (Option.some.inj he), nofun⟩

theorem Inv.advance (h : Inv m s) (hhalt : s.halted = none) (hs : s.drive.phase.Shows status)
    (hadv : s.advance t status = some u) : Inv m u := by
  have hheld := h.held hhalt
  by_cases hh : s.holder = some t
  · rcases (hheld.inside t hh).advance hh hs hadv with ⟨p, hp, rfl⟩ | hn
    · exact h.halt hp
    · have hm := hn.moved
      refine ⟨by rw [hm.log, hm.media]; exact h.run, by rw [hm.returned, hm.log]; exact h.done,
        by rw [hm.halted]; exact h.calm, fun _ => hheld.next hh hn⟩
  · rcases (hheld.outside t hh).advance hadv with rfl | ⟨p, hp, rfl⟩ | ⟨c, hx, rfl⟩ |
      ⟨c, k, hp, hr, hl, h0, hn, rfl⟩
    · exact h.halt (by decide)
    · exact ⟨h.run, h.done, h.calm, fun _ => hheld.goto hh hp⟩
    · refine ⟨h.run, fun x hx' => ?_, h.calm, fun _ => ?_⟩
      · rcases List.mem_append.mp hx' with hx' | hx'
        · exact h.done x hx'
        · rw [List.mem_singleton.mp hx']
          exact hx
      · have hout := hheld.goto (p := .user) hh .user
        exact ⟨hout.free, hout.outside, hout.inside⟩
    · exact ⟨h.run, h.done, h.calm, fun _ => hheld.fetch hn hp hr hl h0⟩

theorem Inv.driven {ok : Bool} (h : Inv m s) (hhalt : s.halted = none) (hd : s.driven ok = some u) :
    Inv m u := by
  have hheld := h.held hhalt
  cases hh : s.holder with
  | none =>
    unfold State.driven at hd
    simp only [(hheld.free hh).1, reduceCtorEq] at hd
  | some t =>
    obtain ⟨hho, hret, hha, hbuf, hlog, hin⟩ := (hheld.inside t hh).driven hh hd
    have hother : ∀ v, u.holder ≠ some v → v ≠ t := by
      rintro v hv rfl
      exact hv (hho.trans hh)
    have hfree : u.holder ≠ none := by
      rw [hho, hh]
      nofun
    have hinside : ∀ v, u.holder = some v → Inside v u.log u.drive u.irq (u.buf v) (u.pc v) := by
      intro v hv
      rw [hho, hh] at hv
      cases hv
      exact hin
    rcases hlog with ⟨hlog, hmedia, hpc⟩ | ⟨e, hlog, he, hpc⟩
    · refine ⟨by rw [hlog, hmedia]; exact h.run, by rw [hret, hlog]; exact h.done,
        by rw [hha]; exact h.calm, fun _ => ⟨fun hx => absurd hx hfree, fun v hv => ?_, hinside⟩⟩
      rw [hlog, hbuf, hpc]
      exact hheld.outside v (by rwa [← hho])
    · refine ⟨by rw [hlog]; exact h.run.append (.single he),
        by rw [hret, hlog]; exact fun x hx => (h.done x hx).mono,
        by rw [hha]; exact h.calm, fun _ => ⟨fun hx => absurd hx hfree, fun v hv => ?_, hinside⟩⟩
      rw [hlog, hbuf, hpc v (hother v hv)]
      exact (hheld.outside v (by rwa [← hho])).mono

theorem Inv.handler (h : Inv m s) (hhalt : s.halted = none) (hq : s.irq.pending = true) :
    Inv m s.handler := by
  have hheld := h.held hhalt
  cases hh : s.holder with
  | none => exact absurd hh (hheld.free_irq hq)
  | some t =>
    obtain ⟨hirq, hin⟩ := (hheld.inside t hh).handler hq
    have hs : s.handler = { s with irq := ⟨false, false, 1⟩ } := by
      unfold State.handler
      simp [hirq]
    rw [hs]
    refine ⟨h.run, h.done, h.calm, fun _ => ⟨fun hx => ?_, hheld.outside, fun v hv => ?_⟩⟩
    · cases hx.symm.trans hh
    · obtain rfl : t = v := Option.some.inj (hh.symm.trans hv)
      exact hin

theorem Inv.step {e : Event} (h : Inv m s) (hs : Step s e u) : Inv m u := by
  cases hs with
  | fill hn hp => exact ⟨h.run, h.done, h.calm, fun _ => (h.held hn).fill hp⟩
  | call hn hp =>
    refine ⟨h.run, h.done, h.calm, fun _ => (h.held hn).goto ((h.held hn).user hp) (.enter _ ?_ ?_ ?_)⟩
    · refine ⟨⟨rfl, fun i e he => by cases he⟩, ?_⟩
      unfold Call.filled
      split <;> rfl
    · exact fun hpos => ⟨hpos, rfl, rfl, rfl⟩
    · exact ⟨Nat.le_refl _, List.nil_sublist _⟩
  | advance hn hshow ha => exact h.advance hn hshow ha
  | driven hn hd => exact h.driven hn hd
  | handler hn hq => exact h.handler hn hq

theorem inv_run {drive : Drive} {buf : Tid → Store} {es : List Event}
    (h : Run Step (State.boot drive buf) es s) : Inv drive.media s := by
  refine h.invariant (fun _ _ _ hi hs => hi.step hs) ⟨.nil _, fun _ hx => ?_, nofun, fun _ => ?_⟩
  · cases hx
  · exact ⟨fun _ => ⟨rfl, rfl⟩, fun _ _ => .user, nofun⟩

end Steps

/-- The accesses that the calls of all threads make are those of an atomic disk in one order. A
call that came back made one for each of its sectors, in their order and while it ran, and its
buffer has what they brought. The semaphore of the channel never goes out of its two values. -/
theorem accesses_atomic {drive : Drive} {buf : Tid → Store} {es : List Event} {s : State}
    (h : Run Step (State.boot drive buf) es s) :
    Run Atomic drive.media s.log s.drive.media ∧ (∀ x ∈ s.returned, x.Served s.log) ∧
      s.halted ≠ some .semaphore := by
  have hinv := inv_run h
  exact ⟨hinv.run, hinv.done, hinv.calm⟩

/-! ## A write and a read of one sector -/

/-- The step that an event is. -/
def State.next (s : State) (e : Event) : Option State :=
  if s.halted = none then
    match e with
    | .fill t b => match s.pc t with
      | .user => some (s.fill t b)
      | .at _ _ => none
    | .call t write slave lba secCnt => match s.pc t with
      | .user => some (s.call t write slave lba secCnt)
      | .at _ _ => none
    | .advance t status => if s.drive.phase.Shows status then s.advance t status else none
    | .driven ok => s.driven ok
    | .handler => if s.irq.pending = true then some s.handler else none
  else none

theorem step_next {s u : State} {e : Event} (h : s.next e = some u) : Step s e u := by
  unfold State.next at h
  split at h
  · rename_i hn
    cases e with
    | fill t b =>
      cases hp : s.pc t with
      | user =>
        simp only [hp, Option.some.injEq] at h
        exact h ▸ .fill hn hp
      | «at» c st => simp only [hp, reduceCtorEq] at h
    | call t write slave lba secCnt =>
      cases hp : s.pc t with
      | user =>
        simp only [hp, Option.some.injEq] at h
        exact h ▸ .call hn hp
      | «at» c st => simp only [hp, reduceCtorEq] at h
    | advance t status =>
      simp only at h
      split at h
      · exact .advance hn ‹_› h
      · cases h
    | driven ok => exact .driven hn h
    | handler =>
      simp only at h
      split at h
      · cases h
        exact .handler hn ‹_›
      · cases h
  · cases h

theorem run_next {es : List Event} {s u : State} (h : es.foldlM State.next s = some u) :
    Run Step s es u :=
  .of_foldlM (fun _ _ _ hv => step_next hv) h

open Event in
/-- Thread 1 writes sector 5. Thread 2 waits for the lock and reads it. -/
def twoCalls : List Event :=
  call 1 true false 5 1 :: List.replicate 13 (advance 1 0) ++
  [call 2 false false 5 1, advance 2 0x80, advance 2 0x80, driven true] ++
  List.replicate 258 (advance 1 0x08) ++ [advance 1 0x80, driven true, handler] ++
  List.replicate 3 (advance 1 0) ++ List.replicate 11 (advance 2 0) ++ [driven true, handler] ++
  List.replicate 259 (advance 2 0x08) ++ List.replicate 8 (advance 2 0)

def blank : Drive := ⟨0, 0, 0, 0, 0, .idle, fun _ _ => 0⟩

def bytes : Tid → Store := fun _ j => BitVec.ofNat 8 (j / 2)

theorem accesses_atomic_two : ∃ s, Run Step (State.boot blank bytes) twoCalls s ∧
    s.returned.length = 2 ∧ s.buf 2 511 = 255 ∧ Run Atomic blank.media s.log s.drive.media ∧
    (∀ x ∈ s.returned, x.Served s.log) ∧ s.halted ≠ some .semaphore := by
  have h : ((twoCalls.foldlM State.next (State.boot blank bytes)).map
      fun s => (s.returned.length, s.buf 2 511)) = some (2, 255) := by decide +kernel
  obtain ⟨s, hs, he⟩ := Option.map_eq_some_iff.mp h
  have hrun := run_next hs
  exact ⟨s, hrun, congrArg Prod.fst he, congrArg Prod.snd he, accesses_atomic hrun⟩

end Frog.Ide
