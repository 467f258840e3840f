import Frog.Device.IdeCalls

/-!
# Inside the lock of a channel

Where the thread with the lock is tells what the drive does, how far its interrupt is and what is in
the buffer. Every step of the thread, the drive and the handler keeps this.
-/

namespace Frog.Ide

set_option autoImplicit false
open Bytes

/-! ## The thread that holds the lock -/

def Irq.quiet : Irq := ⟨false, false, 0⟩

/-- The command is out and the drive has not answered. -/
def Irq.armed : Irq := ⟨false, true, 0⟩

/-- The controller has the answer or the handler took it. -/
def Irq.Fired (q : Irq) : Prop := q = ⟨true, true, 0⟩ ∨ q = ⟨false, false, 1⟩

/-- The thread waits for data with nothing read or written yet, or moves word `i`. -/
def Stage.Moves (i : Nat) : Stage → Prop
  | .busyWait _ | .drq => i = 0
  | .transfer j => j = i ∧ i < 256
  | _ => False

def Stage.Polls : Stage → Prop
  | .busyWait _ | .drq => True
  | _ => False

/-- A read is past the command; `busy_wait` is at its first look at the status. -/
def Stage.Fresh : Stage → Prop
  | .busyWait n => n = 30 * 1000
  | _ => True

def Stage.Stored : Stage → Prop
  | .transfer i => i = 256
  | .down => True
  | _ => False

def Stage.Settles : Stage → Prop
  | .transfer i => i = 256
  | .settle _ => True
  | _ => False

/-- `2 * i` bytes of the sector that the last access read are in the buffer. -/
def Arrived (c : Call) (k : Nat) (src b : Store) (i : Nat) : Prop :=
  ∃ old e, c.accesses = old ++ [e] ∧ e.data = some src ∧
    b = patch (fillFrom c.buf 0 old) (512 * k) (2 * i) src

/-- The drive has the first `2 * i` bytes of sector `k` of the buffer. -/
def Given (c : Call) (k : Nat) (got : Store) (i : Nat) : Prop :=
  ∀ j, j < 2 * i → got j = c.buf (512 * k + j)

/-- Where the thread with the lock is, what the drive does and what the buffer holds. -/
inductive Holds (t : Tid) (c : Call) (k : Nat) (d : Drive) (q : Irq) (b : Store) : Stage → Prop
  | selectDisk : Plain t c k b → d.phase = .idle → q = .quiet → Holds t c k d q b .selectDisk
  | check : Plain t c k b → d.phase = .idle → q = .quiet → Holds t c k d q b .check
  | outs (ws : List (Reg × Byte)) : Plain t c k b → c.curLba ≤ maxLba → d.phase = .idle → q = .quiet →
      (∀ w ∈ ws, w.1 ≠ Reg.cmd) →
      (ws.foldl (fun d w => d.outb w.1 w.2) d).Selected c.slave c.curLba.toNat →
      Holds t c k d q b (.outs ws)
  | expect : Plain t c k b → c.curLba ≤ maxLba → d.Selected c.slave c.curLba.toNat → q = .quiet →
      Holds t c k d q b .expect
  | cmdOut : Plain t c k b → c.curLba ≤ maxLba → d.Selected c.slave c.curLba.toNat → q = .armed →
      Holds t c k d q b .cmdOut
  | asked : c.write = false → Plain t c k b → c.curLba ≤ maxLba →
      d.phase = .reading c.slave c.curLba.toNat → q = .armed → Holds t c k d q b .down
  | found (src : Store) : c.write = false → Made t c (k + 1) → Arrived c k src b 0 →
      c.curLba ≤ maxLba → d.phase = .sending src 0 → q.Fired → Holds t c k d q b .down
  | sending (src : Store) (i : Nat) (st : Stage) : c.write = false → Made t c (k + 1) →
      Arrived c k src b i → c.curLba ≤ maxLba → d.phase = .sending src i → q = .quiet →
      st.Moves i → st.Fresh → Holds t c k d q b st
  | unread : c.write = false → Plain t c (k + 1) b → c.curLba ≤ maxLba → d.phase = .idle → q.Fired →
      Holds t c k d q b .down
  | missed (st : Stage) : c.write = false → Plain t c (k + 1) b → c.curLba ≤ maxLba →
      d.phase = .idle → q = .quiet → st.Polls → Holds t c k d q b st
  | preparing (n : Nat) : c.write = true → Plain t c k b → c.curLba ≤ maxLba →
      d.phase = .preparing c.slave c.curLba.toNat → q = .armed → Holds t c k d q b (.busyWait n)
  | taking (got : Store) (i : Nat) (st : Stage) : c.write = true → Plain t c k b →
      c.curLba ≤ maxLba → d.phase = .taking c.slave c.curLba.toNat got i → q = .armed →
      Given c k got i → st.Moves i → Holds t c k d q b st
  | refused (st : Stage) : c.write = true → d.phase = .idle → q.Fired → st.Polls →
      Plain t c (k + 1) b → c.curLba ≤ maxLba → Holds t c k d q b st
  | storing (got : Store) (st : Stage) : c.write = true → Plain t c k b → c.curLba ≤ maxLba →
      d.phase = .storing c.slave c.curLba.toNat got → q = .armed → Given c k got 256 →
      st.Stored → Holds t c k d q b st
  | stored (st : Stage) : c.write = true → Plain t c (k + 1) b → c.curLba ≤ maxLba →
      d.phase = .idle → q.Fired → st.Stored → Holds t c k d q b st
  | settled (st : Stage) : c.write = false → Plain t c (k + 1) b → c.curLba ≤ maxLba →
      d.phase = .idle → q = .quiet → st.Settles → Holds t c k d q b st
  | release : Plain t c (k + 1) b → c.curLba ≤ maxLba → d.phase = .idle → q = .quiet →
      Holds t c k d q b .release

/-- The thread `t` is not inside the lock. -/
inductive Outside (t : Tid) (log : List Access) (b : Store) : Pc → Prop
  | user : Outside t log b .user
  | enter (c : Call) : Plain t c 0 b → (0 < c.secCnt → Round c 0) → Logged c log →
      Outside t log b (.at c .enter)
  | loop (c : Call) (k : Nat) : Plain t c k b → Round c k → Logged c log → Outside t log b (.at c .loop)
  | fetch (c : Call) (k : Nat) : Plain t c k b → Round c k → Logged c log → c.curCnt ≠ 0 →
      Outside t log b (.at c .fetch)

/-- The thread `t` is inside the lock. -/
inductive Inside (t : Tid) (log : List Access) (d : Drive) (q : Irq) (b : Store) : Pc → Prop
  | mk (c : Call) (k : Nat) (st : Stage) : Round c k → c.curCnt ≠ 0 → Logged c log →
      Holds t c k d q b st → Inside t log d q b (.at c st)

structure Held (s : State) : Prop where
  free : s.holder = none → s.drive.phase = .idle ∧ s.irq = .quiet
  outside : ∀ t, s.holder ≠ some t → Outside t s.log (s.buf t) (s.pc t)
  inside : ∀ t, s.holder = some t → Inside t s.log s.drive s.irq (s.buf t) (s.pc t)

/-! ## Steps of that thread -/

/-- Thread `t` moves: nobody else sees more of it than the drive, the interrupt and the lock. -/
structure Moved (s : State) (t : Tid) (u : State) : Prop where
  log : u.log = s.log
  returned : u.returned = s.returned
  media : u.drive.media = s.drive.media
  halted : u.halted = s.halted
  pc : ∀ v, v ≠ t → u.pc v = s.pc v
  buf : ∀ v, v ≠ t → u.buf v = s.buf v

/-- After a step of the thread with the lock: it is still inside or the lock is free. -/
structure Next (s : State) (t : Tid) (u : State) : Prop where
  moved : Moved s t u
  next : u.holder = some t ∧ Inside t u.log u.drive u.irq (u.buf t) (u.pc t) ∨
    u.holder = none ∧ u.drive.phase = .idle ∧ u.irq = .quiet ∧ Outside t u.log (u.buf t) (u.pc t)

section Inside
variable {s u : State} {t : Tid} {c : Call} {k i : Nat} {st : Stage} {status : Byte} {d : Drive}
  {q : Irq} {b src got : Store} {e : Access}

theorem Moved.refl : Moved s t s := ⟨rfl, rfl, rfl, rfl, fun _ _ => rfl, fun _ _ => rfl⟩

theorem Moved.goto (h : Moved s t u) : Moved s t (u.goto t c st) :=
  ⟨h.log, h.returned, h.media, h.halted,
    fun v hv => (Function.update_of_ne hv _ _).trans (h.pc v hv), h.buf⟩

theorem Next.goto (hm : Moved s t u) (hh : u.holder = some t) (hr : Round c k) (h0 : c.curCnt ≠ 0)
    (hl : Logged c s.log) (h : Holds t c k u.drive u.irq (u.buf t) st) : Next s t (u.goto t c st) := by
  refine ⟨hm.goto, .inl ⟨hh, ?_⟩⟩
  have hpc : (u.goto t c st).pc t = .at c st := Function.update_self ..
  rw [hpc]
  refine .mk c k st hr h0 ?_ h
  change Logged c u.log
  rwa [hm.log]

theorem moved_outb (r : Reg) (x : Byte) : Moved s t (s.outb r x) :=
  ⟨rfl, rfl, outb_media, rfl, fun _ _ => rfl, fun _ _ => rfl⟩

theorem shows_idle (h : d.phase = .idle) (hs : d.phase.Shows status) :
    status &&& ATA_STATR_BSY = 0 ∧ status &&& ATA_STATR_DRQ = 0 := by
  rw [h] at hs
  have hb : status &&& ATA_STATR_BSY = 0 := not_not.mp fun hne => hs.1.mp hne
  exact ⟨hb, not_not.mp fun hne => (hs.2 id).mp hne⟩

theorem shows_transfer (hb : ¬ d.phase.Busy) (ht : d.phase.Transfers) (hs : d.phase.Shows status) :
    status &&& ATA_STATR_BSY = 0 ∧ status &&& ATA_STATR_DRQ ≠ 0 :=
  ⟨not_not.mp fun hne => hb (hs.1.mp hne), (hs.2 hb).mpr ht⟩

/-- A word of the sector arrives in the buffer. -/
theorem Arrived.word (h : Arrived c k src b i) (hc : c.cursor = 512 * k) :
    Arrived c k src (patch b (c.cursor + 2 * i) 2
      fun j => if j = 0 then src (2 * i) else src (2 * i + 1)) (i + 1) := by
  obtain ⟨old, e, he, hd, rfl⟩ := h
  refine ⟨old, e, he, hd, ?_⟩
  rw [hc, patch_append]
  refine patch_congr fun j hj => ?_
  by_cases h1 : j < 2 * i
  · rw [if_pos h1]
  · rw [if_neg h1]
    by_cases h2 : j - 2 * i = 0
    · rw [if_pos h2]
      exact congrArg src (by omega)
    · rw [if_neg h2]
      exact congrArg src (by omega)

/-- All words are in the buffer. -/
theorem Arrived.plain (h : Arrived c k src b 256) (hm : Made t c (k + 1)) (hw : c.write = false) :
    Plain t c (k + 1) b := by
  obtain ⟨old, e, he, hd, rfl⟩ := h
  have hlen : old.length = k := by
    have := hm.length
    rw [he] at this
    simpa using this
  refine ⟨hm, ?_⟩
  unfold Call.filled
  rw [hw, he, fillFrom_snoc, hd, hlen, Nat.zero_add]
  rfl

theorem Given.word (h : Given c k got i) (hc : c.cursor = 512 * k) (hb : b = c.buf) :
    Given c k (patch got (2 * i) 2
      fun j => if j = 0 then b (c.cursor + 2 * i) else b (c.cursor + 2 * i + 1)) (i + 1) := by
  intro j hj
  by_cases h1 : j < 2 * i
  · rw [patch_out (.inl h1)]
    exact h j h1
  · rw [patch_in (by omega), hb, hc]
    by_cases h2 : j - 2 * i = 0
    · simp only [if_pos h2]
      exact congrArg c.buf (by omega)
    · simp only [if_neg h2]
      exact congrArg c.buf (by omega)

theorem Holds.word (hr : Round c k) (hi : i < 256) (h : Holds t c k d q b (.transfer i))
    (hd : s.drive = d) (hq : s.irq = q) (hb : s.buf t = b) :
    Moved s t (s.word t c i) ∧ (s.word t c i).holder = s.holder ∧ Holds t c k (s.word t c i).drive
      (s.word t c i).irq ((s.word t c i).buf t) (.transfer (i + 1)) := by
  subst hd hq hb
  cases h with
  | sending src _ _ hw hm ha hn hp hq hmv hf =>
    obtain ⟨rfl, hi⟩ := hmv
    have ha' := ha.word hr.cursor
    unfold State.word Drive.insw
    rw [if_neg (by simp [hw]), hp]
    refine ⟨⟨rfl, rfl, rfl, rfl, fun _ _ => rfl, fun v hv => Function.update_of_ne hv _ _⟩, rfl, ?_⟩
    simp only [Function.update_self]
    by_cases h255 : i = 255
    · subst h255
      exact .settled _ hw (ha'.plain hm hw) hn (by simp) hq rfl
    · exact .sending src (i + 1) _ hw hm ha' hn (by simp [h255]) hq ⟨rfl, by omega⟩ trivial
  | taking got _ _ hw hpl hn hp hq hg hmv =>
    obtain ⟨rfl, hi⟩ := hmv
    have hg' := hg.word (b := s.buf t) hr.cursor (by rw [hpl.buf, Call.filled, if_pos hw])
    unfold State.word Drive.outsw
    rw [if_pos hw, hp]
    refine ⟨⟨rfl, rfl, rfl, rfl, fun _ _ => rfl, fun _ _ => rfl⟩, rfl, ?_⟩
    by_cases h255 : i = 255
    · subst h255
      exact .storing _ _ hw hpl hn (by simp) hq hg' rfl
    · exact .taking _ (i + 1) _ hw hpl hn (by simp [h255]) hq hg' ⟨rfl, by omega⟩
  | missed _ _ _ _ _ _ hpo => exact hpo.elim
  | refused _ _ _ _ hpo => exact hpo.elim
  | storing _ _ _ _ _ _ _ _ hst => exact absurd hst (by unfold Stage.Stored; omega)
  | stored _ _ _ _ _ _ hst => exact absurd hst (by unfold Stage.Stored; omega)
  | settled _ _ _ _ _ _ hst => exact absurd hst (by unfold Stage.Settles; omega)

/-! What a step of the thread inside can be, stage by stage. -/

theorem advance_down (hp : s.pc t = .at c .down) (hf : s.irq.Fired) (h : s.advance t status = some u) :
    u = { s with irq := .quiet }.goto t c (if c.write then .release else .busyWait (30 * 1000)) := by
  unfold State.advance at h
  rw [hp] at h
  rcases hf with hq | hq <;> simp only [hq] at h <;> cases h
  rfl

theorem advance_busyWait {n : Nat} (hp : s.pc t = .at c (.busyWait n))
    (h : s.advance t status = some u) : n - 1 = 0 ∧ u = s.failed t c ∨
      status &&& ATA_STATR_BSY = 0 ∧ u = s.goto t c .drq ∨
      status &&& ATA_STATR_BSY ≠ 0 ∧ u = s.goto t c (.busyWait (n - 1)) := by
  unfold State.advance at h
  rw [hp] at h
  simp only at h
  split at h
  · exact .inl ⟨‹_›, (Option.some.inj h).symm⟩
  · split at h
    · exact .inr (.inl ⟨‹_›, (Option.some.inj h).symm⟩)
    · exact .inr (.inr ⟨‹_›, (Option.some.inj h).symm⟩)

theorem advance_drq (hp : s.pc t = .at c .drq) (h : s.advance t status = some u) :
    status &&& ATA_STATR_DRQ = 0 ∧ u = s.failed t c ∨
      status &&& ATA_STATR_DRQ ≠ 0 ∧ u = s.goto t c (.transfer 0) := by
  unfold State.advance at h
  rw [hp] at h
  simp only at h
  split at h
  · exact .inl ⟨‹_›, (Option.some.inj h).symm⟩
  · exact .inr ⟨‹_›, (Option.some.inj h).symm⟩

theorem advance_transfer (hp : s.pc t = .at c (.transfer i)) (h : s.advance t status = some u) :
    i = 256 ∧ u = s.goto t c (if c.write then .down else .settle 0) ∨
      i ≠ 256 ∧ u = (s.word t c i).goto t c (.transfer (i + 1)) := by
  unfold State.advance at h
  rw [hp] at h
  simp only at h
  split at h
  · exact .inl ⟨‹_›, (Option.some.inj h).symm⟩
  · exact .inr ⟨‹_›, (Option.some.inj h).symm⟩

theorem advance_settle (hp : s.pc t = .at c (.settle i)) (h : s.advance t status = some u) :
    u = s.goto t c .release ∨ u = s.goto t c (.settle (i + 1)) := by
  unfold State.advance at h
  rw [hp] at h
  simp only at h
  split at h
  · exact .inl (Option.some.inj h).symm
  · exact .inr (Option.some.inj h).symm

theorem selectSector_ne_cmd {slave : Bool} {lba : Lba} :
    ∀ w ∈ selectSector slave lba, w.1 ≠ Reg.cmd := by
  simp [selectSector]

/-- Up to the command nothing depends on the drive. -/
theorem Holds.prepare (hp : s.pc t = .at c st) (hh : s.holder = some t) (hr : Round c k)
    (h0 : c.curCnt ≠ 0) (hl : Logged c s.log) (hpl : Plain t c k (s.buf t))
    (hst : st = .selectDisk ∨ st = .check) (hi : s.drive.phase = .idle) (hq : s.irq = .quiet)
    (h : s.advance t status = some u) : (∃ p, p ≠ .semaphore ∧ u = s.halt p) ∨ Next s t u := by
  unfold State.advance at h
  rw [hp] at h
  rcases hst with rfl | rfl
  · cases h
    exact .inr (Next.goto (moved_outb _ _) hh hr h0 hl (.check hpl (outb_idle hi (by decide)) hq))
  · simp only at h
    split at h <;> cases h
    · rename_i hn
      exact .inr (Next.goto .refl hh hr h0 hl
        (.outs _ hpl hn hi hq selectSector_ne_cmd (selected_outs hi hn)))
    · exact .inl ⟨.lba, by decide, rfl⟩

theorem Inside.advance (hin : Inside t s.log s.drive s.irq (s.buf t) (s.pc t))
    (hh : s.holder = some t) (hs : s.drive.phase.Shows status) (h : s.advance t status = some u) :
    (∃ p, p ≠ .semaphore ∧ u = s.halt p) ∨ Next s t u := by
  generalize hp : s.pc t = p at hin
  obtain ⟨c, k, st, hr, h0, hl, hh'⟩ := hin
  have hgo : ∀ {st}, Holds t c k s.drive s.irq (s.buf t) st → Next s t (s.goto t c st) :=
    fun h => Next.goto .refl hh hr h0 hl h
  have hread : c.write = false → s.failed t c = s.goto t c .release := fun hw => by
    rw [State.failed, hw]
    rfl
  have hwrite : c.write = true → s.failed t c = s.halt .refused := fun hw => by
    rw [State.failed, if_pos hw]
  have hquiet : ∀ {st}, Holds t c k s.drive .quiet (s.buf t) st →
      Next s t ({ s with irq := .quiet }.goto t c st) :=
    fun h => Next.goto ⟨rfl, rfl, rfl, rfl, fun _ _ => rfl, fun _ _ => rfl⟩ hh hr h0 hl h
  cases hh' with
  | selectDisk hpl hi hq => exact Holds.prepare hp hh hr h0 hl hpl (.inl rfl) hi hq h
  | check hpl hi hq => exact Holds.prepare hp hh hr h0 hl hpl (.inr rfl) hi hq h
  | outs ws hpl hn hi hq hws hsel =>
    unfold State.advance at h
    rw [hp] at h
    cases ws with
    | nil =>
      cases h
      exact .inr (hgo (.expect hpl hn hsel hq))
    | cons w ws =>
      cases h
      have hw := hws w List.mem_cons_self
      exact .inr (Next.goto (moved_outb _ _) hh hr h0 hl (.outs ws hpl hn (outb_idle hi hw) hq
        (fun w hw => hws w (List.mem_cons_of_mem _ hw)) hsel))
  | expect hpl hn hsel hq =>
    unfold State.advance at h
    rw [hp] at h
    cases h
    refine .inr (Next.goto ⟨rfl, rfl, rfl, rfl, fun _ _ => rfl, fun _ _ => rfl⟩ hh hr h0 hl
      (.cmdOut hpl hn hsel ?_))
    change ({ s.irq with expectingIntr := true } : Irq) = _
    rw [hq]
    rfl
  | cmdOut hpl hn hsel hq =>
    unfold State.advance at h
    rw [hp] at h
    cases h
    have hphase : (s.outb .cmd c.cmd).drive.phase = s.drive.command c.cmd := by
      unfold State.outb Drive.outb
      rw [hsel.idle]
    cases hw : c.write with
    | true =>
      refine .inr (Next.goto (moved_outb _ _) hh hr h0 hl (.preparing _ hw hpl hn ?_ hq))
      rw [hphase, Call.cmd, if_pos hw, command_write hsel]
    | false =>
      refine .inr (Next.goto (moved_outb _ _) hh hr h0 hl (.asked hw hpl hn ?_ hq))
      rw [hphase, Call.cmd, hw]
      exact command_read hsel
  | asked hw hpl hn hph hq =>
    unfold State.advance at h
    rw [hp] at h
    simp only [hq] at h
    cases h
  | found src hw hm ha hn hph hq =>
    obtain rfl := advance_down hp hq h
    rw [hw]
    exact .inr (hquiet (.sending src 0 _ hw hm ha hn hph rfl rfl rfl))
  | sending src i _ hw hm ha hn hph hq hmv hf =>
    obtain ⟨hb, hd⟩ := shows_transfer (by rw [hph]; exact id) (by rw [hph]; trivial) hs
    cases st with
    | busyWait n =>
      obtain rfl : n = 30 * 1000 := hf
      rcases advance_busyWait hp h with ⟨hz, -⟩ | ⟨-, rfl⟩ | ⟨hne, -⟩
      · cases hz
      · exact .inr (hgo (.sending src i _ hw hm ha hn hph hq hmv trivial))
      · exact absurd hb hne
    | drq =>
      obtain rfl : i = 0 := hmv
      rcases advance_drq hp h with ⟨hz, -⟩ | ⟨-, rfl⟩
      · exact absurd hz hd
      · exact .inr (hgo (.sending src 0 _ hw hm ha hn hph hq ⟨rfl, by decide⟩ trivial))
    | transfer j =>
      obtain ⟨rfl, hi⟩ : j = i ∧ i < 256 := hmv
      rcases advance_transfer hp h with ⟨rfl, -⟩ | ⟨-, rfl⟩
      · exact absurd hi (Nat.lt_irrefl _)
      · obtain ⟨hmoved, hhold, hnext⟩ := Holds.word hr hi
          (.sending src j _ hw hm ha hn hph hq ⟨rfl, hi⟩ trivial) rfl rfl rfl
        exact .inr (Next.goto hmoved (hhold.trans hh) hr h0 hl hnext)
    | _ => exact hmv.elim
  | unread hw hpl hn hi hq =>
    obtain rfl := advance_down hp hq h
    rw [hw]
    exact .inr (hquiet (.missed _ hw hpl hn hi rfl trivial))
  | missed _ hw hpl hn hi hq hpo =>
    cases st with
    | busyWait n =>
      rcases advance_busyWait hp h with ⟨-, rfl⟩ | ⟨-, rfl⟩ | ⟨hne, -⟩
      · rw [hread hw]
        exact .inr (hgo (.release hpl hn hi hq))
      · exact .inr (hgo (.missed _ hw hpl hn hi hq trivial))
      · exact absurd (shows_idle hi hs).1 hne
    | drq =>
      rcases advance_drq hp h with ⟨-, rfl⟩ | ⟨hne, -⟩
      · rw [hread hw]
        exact .inr (hgo (.release hpl hn hi hq))
      · exact absurd (shows_idle hi hs).2 hne
    | _ => exact hpo.elim
  | preparing n hw hpl hn hph hq =>
    rcases advance_busyWait hp h with ⟨-, rfl⟩ | ⟨hb, -⟩ | ⟨-, rfl⟩
    · exact .inl ⟨.refused, by decide, hwrite hw⟩
    · rw [hph] at hs
      exact absurd hb (hs.1.mpr trivial)
    · exact .inr (hgo (.preparing _ hw hpl hn hph hq))
  | taking got i _ hw hpl hn hph hq hg hmv =>
    obtain ⟨hb, hd⟩ := shows_transfer (by rw [hph]; exact id) (by rw [hph]; trivial) hs
    cases st with
    | busyWait n =>
      rcases advance_busyWait hp h with ⟨-, rfl⟩ | ⟨-, rfl⟩ | ⟨hne, -⟩
      · exact .inl ⟨.refused, by decide, hwrite hw⟩
      · exact .inr (hgo (.taking got i _ hw hpl hn hph hq hg hmv))
      · exact absurd hb hne
    | drq =>
      obtain rfl : i = 0 := hmv
      rcases advance_drq hp h with ⟨hz, -⟩ | ⟨-, rfl⟩
      · exact absurd hz hd
      · exact .inr (hgo (.taking got 0 _ hw hpl hn hph hq hg ⟨rfl, by decide⟩))
    | transfer j =>
      obtain ⟨rfl, hi⟩ : j = i ∧ i < 256 := hmv
      rcases advance_transfer hp h with ⟨rfl, -⟩ | ⟨-, rfl⟩
      · exact absurd hi (Nat.lt_irrefl _)
      · obtain ⟨hmoved, hhold, hnext⟩ := Holds.word hr hi
          (.taking got j _ hw hpl hn hph hq hg ⟨rfl, hi⟩) rfl rfl rfl
        exact .inr (Next.goto hmoved (hhold.trans hh) hr h0 hl hnext)
    | _ => exact hmv.elim
  | refused _ hw hi hq hpo hpl hn =>
    cases st with
    | busyWait n =>
      rcases advance_busyWait hp h with ⟨-, rfl⟩ | ⟨-, rfl⟩ | ⟨hne, -⟩
      · exact .inl ⟨.refused, by decide, hwrite hw⟩
      · exact .inr (hgo (.refused _ hw hi hq trivial hpl hn))
      · exact absurd (shows_idle hi hs).1 hne
    | drq =>
      rcases advance_drq hp h with ⟨-, rfl⟩ | ⟨hne, -⟩
      · exact .inl ⟨.refused, by decide, hwrite hw⟩
      · exact absurd (shows_idle hi hs).2 hne
    | _ => exact hpo.elim
  | storing got _ hw hpl hn hph hq hg hst =>
    cases st with
    | transfer i =>
      obtain rfl : i = 256 := hst
      rcases advance_transfer hp h with ⟨-, rfl⟩ | ⟨hne, -⟩
      · rw [if_pos hw]
        exact .inr (hgo (.storing got _ hw hpl hn hph hq hg trivial))
      · exact absurd rfl hne
    | down =>
      unfold State.advance at h
      rw [hp] at h
      simp only [hq] at h
      cases h
    | _ => exact hst.elim
  | stored _ hw hpl hn hi hq hst =>
    cases st with
    | transfer i =>
      obtain rfl : i = 256 := hst
      rcases advance_transfer hp h with ⟨-, rfl⟩ | ⟨hne, -⟩
      · rw [if_pos hw]
        exact .inr (hgo (.stored _ hw hpl hn hi hq trivial))
      · exact absurd rfl hne
    | down =>
      obtain rfl := advance_down hp hq h
      rw [if_pos hw]
      exact .inr (hquiet (.release hpl hn hi rfl))
    | _ => exact hst.elim
  | settled _ hw hpl hn hi hq hst =>
    cases st with
    | transfer i =>
      obtain rfl : i = 256 := hst
      rcases advance_transfer hp h with ⟨-, rfl⟩ | ⟨hne, -⟩
      · rw [hw]
        exact .inr (hgo (.settled _ hw hpl hn hi hq trivial))
      · exact absurd rfl hne
    | settle j =>
      rcases advance_settle hp h with rfl | rfl
      · exact .inr (hgo (.release hpl hn hi hq))
      · exact .inr (hgo (.settled _ hw hpl hn hi hq trivial))
    | _ => exact hst.elim
  | release hpl hn hi hq =>
    unfold State.advance at h
    rw [hp] at h
    cases h
    refine .inr ⟨⟨rfl, rfl, rfl, rfl, fun v hv => Function.update_of_ne hv _ _, fun _ _ => rfl⟩,
      .inr ⟨rfl, hi, hq, ?_⟩⟩
    have hpc : (({ s with holder := none } : State).goto t c.advance .loop).pc t = .at c.advance .loop :=
      Function.update_self ..
    rw [hpc]
    have hmade : Made t c.advance (k + 1) :=
      ⟨hpl.made.length, fun i e hi => (hpl.made.each i e hi).congr rfl rfl rfl rfl⟩
    exact .loop _ (k + 1) ⟨hmade, hpl.buf⟩ (hr.advance hn h0) ⟨hl.start, hl.sub⟩

end Inside

/-! ## Steps of the drive and of the handler -/

section Drive
variable {s u : State} {t : Tid} {c : Call} {k : Nat} {st : Stage} {e : Access} {ok : Bool}

theorem note_pc_holder (hh : s.holder = some t) (hp : s.pc t = .at c st) :
    (s.note e).pc t = .at { c with accesses := c.accesses ++ [e] } st := by
  simp only [State.note, hp, hh, if_true]

theorem note_pc_other (hh : s.holder ≠ some t) : (s.note e).pc t = s.pc t := by
  simp only [State.note]
  split
  · rw [if_neg hh]
    exact Eq.symm ‹_›
  · exact Eq.symm ‹_›

theorem Outside.mono {log : List Access} {b : Store} {p : Pc} (h : Outside t log b p) :
    Outside t (log ++ [e]) b p := by
  cases h with
  | user => exact .user
  | enter c hp hr hl => exact .enter c hp hr hl.mono
  | loop c k hp hr hl => exact .loop c k hp hr hl.mono
  | fetch c k hp hr hl h0 => exact .fetch c k hp hr hl.mono h0

/-- What the drive does by itself: at most one access, which is one of the atomic disk. -/
structure Drives (s u : State) (t : Tid) : Prop where
  holder : u.holder = s.holder
  returned : u.returned = s.returned
  halted : u.halted = s.halted
  buf : u.buf = s.buf
  log : u.log = s.log ∧ u.drive.media = s.drive.media ∧ u.pc = s.pc ∨
    ∃ e, u.log = s.log ++ [e] ∧ Atomic s.drive.media e u.drive.media ∧
      ∀ v, v ≠ t → u.pc v = s.pc v
  inside : Inside t u.log u.drive u.irq (u.buf t) (u.pc t)

theorem Drives.note {r : State} (hh : s.holder = some t) (hp : s.pc t = .at c st) (hr : Round c k)
    (h0 : c.curCnt ≠ 0) (hl : Logged c s.log) (he : Atomic s.drive.media e r.drive.media)
    (hs : r.holder = s.holder ∧ r.returned = s.returned ∧ r.halted = s.halted ∧ r.buf = s.buf ∧
      r.log = s.log ∧ r.pc = s.pc)
    (h : Holds t { c with accesses := c.accesses ++ [e] } k r.drive r.irq (s.buf t) st) :
    Drives s (r.note e) t := by
  obtain ⟨h1, h2, h3, h4, h5, h6⟩ := hs
  refine ⟨h1, h2, h3, h4, .inr ⟨e, ?_, he, fun v hv => ?_⟩, ?_⟩
  · change r.log ++ [e] = _
    rw [h5]
  · rw [note_pc_other (by rw [h1, hh]; exact fun hx => hv (Option.some.inj hx).symm), h6]
  · rw [note_pc_holder (h1.trans hh) (by rw [h6]; exact hp)]
    refine .mk _ k st ⟨hr.pos, hr.lba, hr.cnt, hr.cursor⟩ h0 ?_ ?_
    · change Logged _ (r.log ++ [e])
      rw [h5]
      exact hl.snoc
    · change Holds t _ k r.drive r.irq (r.buf t) st
      rw [h4]
      exact h

theorem Inside.driven (hin : Inside t s.log s.drive s.irq (s.buf t) (s.pc t))
    (hh : s.holder = some t) (h : s.driven ok = some u) : Drives s u t := by
  generalize hp : s.pc t = p at hin
  obtain ⟨c, k, st, hr, h0, hl, hh'⟩ := hin
  have hof : ∀ {d : Option Store} {w}, c.write = w → c.curLba ≤ maxLba →
      (c.write = true → ∀ x, d = some x → ∀ j, j < 512 → x j = c.buf (512 * k + j)) →
      (⟨t, w, c.slave, c.curLba.toNat, d⟩ : Access).Of t c k :=
    fun hw hn hd => ⟨rfl, hw.symm, rfl, hr.lba, hn, hd⟩
  unfold State.driven at h
  simp only [hh, Option.getD_some] at h
  cases hh' with
  | asked hw hpl hn hph hq =>
    simp only [hph, Option.some.injEq] at h
    subst h
    cases ok with
    | true =>
      refine Drives.note hh hp hr h0 hl ⟨fun _ d hd j _ => ?_, rfl⟩ ⟨hh.symm, rfl, rfl, rfl, rfl, rfl⟩ ?_
      · cases hd
        rfl
      · refine .found _ hw (hpl.made.snoc (hof hw hn fun h => ?_)) ⟨c.accesses, _, rfl, rfl, ?_⟩ hn
          rfl (.inl ?_)
        · rw [hw] at h
          cases h
        · rw [hpl.buf, Call.filled, hw, Nat.mul_zero, patch_zero]
          rfl
        · rw [hq]
          rfl
    | false =>
      refine Drives.note hh hp hr h0 hl ⟨fun _ d hd j _ => ?_, rfl⟩ ⟨hh.symm, rfl, rfl, rfl, rfl, rfl⟩ ?_
      · cases hd
      · refine .unread hw (hpl.snoc (hof hw hn fun h => ?_) (.inr rfl)) hn rfl (.inl ?_)
        · rw [hw] at h
          cases h
        · rw [hq]
          rfl
  | preparing n hw hpl hn hph hq =>
    simp only [hph] at h
    cases ok with
    | true =>
      cases h
      refine ⟨hh.symm, rfl, rfl, rfl, .inl ⟨rfl, rfl, rfl⟩, ?_⟩
      change Inside t s.log _ _ (s.buf t) (s.pc t)
      rw [hp]
      exact .mk c k _ hr h0 hl (.taking _ 0 _ hw hpl hn rfl hq (fun j hj => absurd hj (by omega)) rfl)
    | false =>
      simp only [Bool.false_eq_true, if_false, Option.some.injEq] at h
      subst h
      refine Drives.note hh hp hr h0 hl ⟨fun h => ?_, rfl⟩ ⟨hh.symm, rfl, rfl, rfl, rfl, rfl⟩ ?_
      · cases h
      · refine .refused _ hw rfl (.inl ?_) trivial (hpl.snoc (hof hw hn fun _ x hx => ?_) (.inr rfl)) hn
        · rw [hq]
          rfl
        · cases hx
  | storing got st hw hpl hn hph hq hg hst =>
    simp only [hph, Option.some.injEq] at h
    subst h
    refine Drives.note hh hp hr h0 hl ⟨fun h => ?_, rfl⟩ ⟨hh.symm, rfl, rfl, rfl, rfl, rfl⟩ ?_
    · cases h
    · refine .stored _ hw (hpl.snoc (hof hw hn fun _ x hx j hj => ?_) (.inl hw)) hn rfl (.inl ?_) hst
      · split at hx <;> cases hx
        exact hg j hj
      · rw [hq]
        rfl
  | selectDisk _ hi _ => simp only [hi, reduceCtorEq] at h
  | check _ hi _ => simp only [hi, reduceCtorEq] at h
  | outs _ _ _ hi _ _ _ => simp only [hi, reduceCtorEq] at h
  | expect _ _ hsel _ => simp only [hsel.idle, reduceCtorEq] at h
  | cmdOut _ _ hsel _ => simp only [hsel.idle, reduceCtorEq] at h
  | found _ _ _ _ _ hi _ => simp only [hi, reduceCtorEq] at h
  | sending _ _ _ _ _ _ _ hi _ _ _ => simp only [hi, reduceCtorEq] at h
  | unread _ _ _ hi _ => simp only [hi, reduceCtorEq] at h
  | missed _ _ _ _ hi _ _ => simp only [hi, reduceCtorEq] at h
  | taking _ _ _ _ _ _ hi _ _ _ => simp only [hi, reduceCtorEq] at h
  | refused _ _ hi _ _ _ _ => simp only [hi, reduceCtorEq] at h
  | stored _ _ _ _ hi _ _ => simp only [hi, reduceCtorEq] at h
  | settled _ _ _ _ hi _ _ => simp only [hi, reduceCtorEq] at h
  | release _ _ hi _ => simp only [hi, reduceCtorEq] at h

/-- The handler takes an answer that a thread waits for. -/
theorem Inside.handler {log : List Access} {d : Drive} {q : Irq} {b : Store} {p : Pc}
    (hin : Inside t log d q b p) (hq : q.pending = true) :
    q = ⟨true, true, 0⟩ ∧ Inside t log d ⟨false, false, 1⟩ b p := by
  obtain ⟨c, k, st, hr, h0, hl, h⟩ := hin
  have hquiet : q ≠ .quiet := by
    rintro rfl
    cases hq
  have harmed : q ≠ .armed := by
    rintro rfl
    cases hq
  have hfired : q.Fired → q = ⟨true, true, 0⟩ := by
    rintro (h | h)
    · exact h
    · rw [h] at hq
      cases hq
  have htaken : Irq.Fired ⟨false, false, 1⟩ := .inr rfl
  cases h with
  | found src hw hm ha hn hph hf =>
    exact ⟨hfired hf, .mk c k _ hr h0 hl (.found src hw hm ha hn hph htaken)⟩
  | unread hw hpl hn hi hf => exact ⟨hfired hf, .mk c k _ hr h0 hl (.unread hw hpl hn hi htaken)⟩
  | refused _ hw hi hf hpo hpl hn =>
    exact ⟨hfired hf, .mk c k _ hr h0 hl (.refused _ hw hi htaken hpo hpl hn)⟩
  | stored _ hw hpl hn hi hf hst =>
    exact ⟨hfired hf, .mk c k _ hr h0 hl (.stored _ hw hpl hn hi htaken hst)⟩
  | selectDisk _ _ hq => exact absurd hq hquiet
  | check _ _ hq => exact absurd hq hquiet
  | outs _ _ _ _ hq _ _ => exact absurd hq hquiet
  | expect _ _ _ hq => exact absurd hq hquiet
  | sending _ _ _ _ _ _ _ _ hq _ _ => exact absurd hq hquiet
  | missed _ _ _ _ _ hq _ => exact absurd hq hquiet
  | settled _ _ _ _ _ hq _ => exact absurd hq hquiet
  | release _ _ _ hq => exact absurd hq hquiet
  | cmdOut _ _ _ hq => exact absurd hq harmed
  | asked _ _ _ _ hq => exact absurd hq harmed
  | preparing _ _ _ _ _ hq => exact absurd hq harmed
  | taking _ _ _ _ _ _ _ hq _ _ => exact absurd hq harmed
  | storing _ _ _ _ _ _ hq _ _ => exact absurd hq harmed

end Drive

end Frog.Ide
