import Frog.Thread.Channel

/-!
# The stream of a queue

At any point between the steps of the calls the bytes that went into a queue are those that came out
of it and then those that it carries. Only who has the lock is in the middle of a transfer.
-/

namespace Frog.Thread

set_option autoImplicit false

theorem initIoqueue_size {free : Nat} {size : BitVec 32} {q : CircleQueue}
    (h : initIoqueue free size = some q) : q = CircleQueue.init size ∧ size.toNat < 2 ^ 31 := by
  unfold initIoqueue at h
  split at h
  · next hc =>
    refine ⟨(Option.some.inj h).symm, ?_⟩
    obtain ⟨h0, hle⟩ := hc
    have hmax : (pgCount size).toNat ≤ maxKernelPages := Nat.le_trans hle (Nat.min_le_right ..)
    have h4144 : (BitVec.ofNat 32 (pgSize + headerSize)).toNat = 4144 := rfl
    unfold pgCount at h0 hmax
    by_cases hlt : BitVec.ofNat 32 (pgSize + headerSize) < size
    · have hlt' := BitVec.lt_def.mp hlt
      rw [if_pos hlt, BitVec.toNat_udiv, BitVec.toNat_sub, BitVec.toNat_add, h4144, CircleQueue.toNat_one]
        at h0 hmax
      rw [h4144] at hlt'
      unfold maxKernelPages at hmax
      have hsize := size.isLt
      by_cases hw : size.toNat + 4144 < 2 ^ 32
      · rw [Nat.mod_eq_of_lt hw] at h0 hmax
        omega
      · -- where the sum wraps, the quotient is zero or far too big
        obtain ⟨y, hy⟩ := Nat.exists_eq_add_of_le (Nat.le_of_not_lt hw)
        have hy' : (size.toNat + 4144) % 2 ^ 32 = y := by omega
        rw [hy'] at h0 hmax
        rcases Nat.eq_zero_or_pos y with rfl | hpos
        · exact absurd hmax (by decide)
        · have hsub : (2 ^ 32 - 1 + y) % 2 ^ 32 = y - 1 := by omega
          rw [hsub, Nat.div_eq_of_lt (by omega)] at h0
          cases h0
    · have hge' := BitVec.le_def.mp (BitVec.not_lt.mp hlt)
      rw [h4144] at hge'
      omega
  · cases h


/-! ## Places -/

namespace Place

/-- Between the end of `lock_fetch` and `lock_release`. -/
def locked : Place → Bool
  | .inside _ .test | .inside _ .copy | .inside _ .wake | .inside _ .woke | .inside _ .sleep
  | .inside _ .release => true
  | _ => false

/-- The bytes of a put that is being done. -/
def halfPut : Place → List Byte
  | .inside (.put data written _) .copy => data.take written
  | _ => []

def halfGet : Place → List Byte
  | .inside (.get _ got) .copy => got
  | _ => []

/-- What a call has moved when it has not returned yet. -/
def movedPut : Place → List (List Byte)
  | .inside (.put data written _) g => if g ≠ .copy ∧ 0 < written then [data] else []
  | _ => []

def movedGet : Place → List (List Byte)
  | .inside (.get _ got) g => if g ≠ .copy ∧ got ≠ [] then [got] else []
  | _ => []

/-- Outside of the inner loops a call has moved all or nothing. -/
inductive Sound (size : Nat) (xs : List Byte) : Place → Prop
  | outside : Sound size xs .outside
  | put {data : List Byte} {written : Nat} {wData : List Byte} {g : Stage}
      (hn : data.length + 1 < size) (hw : written = 0 ∨ written = data.length) (hc : g ≠ .copy)
      (hg : g = .fetch ∨ g = .test → written = 0 ∧ 0 < data.length) :
      Sound size xs (.inside (.put data written wData) g)
  | putCopy {data : List Byte} {written : Nat} (hn : data.length + 1 < size) (h0 : 0 < data.length)
      (hw : written ≤ data.length) (hroom : xs.length + (data.length - written) < size)
      (hs : data.take written <:+ xs) :
      Sound size xs (.inside (.put data written (data.drop written)) .copy)
  | get {count : Nat} {got : List Byte} {g : Stage} (hn : count + 1 < size)
      (hw : got = [] ∨ got.length = count) (hc : g ≠ .copy)
      (hg : g = .fetch ∨ g = .test → got = [] ∧ 0 < count) :
      Sound size xs (.inside (.get count got) g)
  | getCopy {count : Nat} {got : List Byte} (hn : count + 1 < size) (h0 : 0 < count)
      (hw : got.length ≤ count) (hrest : count - got.length ≤ xs.length) :
      Sound size xs (.inside (.get count got) .copy)

variable {size : Nat} {xs ys : List Byte} {P : Place}

theorem Sound.unlocked (h : P.Sound size xs) (hl : P.locked = false) : P.Sound size ys := by
  cases h with
  | outside => exact .outside
  | put hn hw hc hg => exact .put hn hw hc hg
  | get hn hw hc hg => exact .get hn hw hc hg
  | putCopy | getCopy => cases hl

/-- A call goes on to a place where nothing is asked for. -/
theorem Sound.stage {k : Call} {g g' : Stage} (h : Sound size xs (.inside k g)) (hg : g ≠ .copy)
    (hc : g' ≠ .copy) (hf : g' ≠ .fetch) (ht : g' ≠ .test) : Sound size xs (.inside k g') := by
  cases h with
  | put hn hw => exact .put hn hw hc fun h => (h.elim hf ht).elim
  | get hn hw => exact .get hn hw hc fun h => (h.elim hf ht).elim
  | putCopy | getCopy => exact absurd rfl hg

theorem movedPut_stage {k : Call} {g g' : Stage} (hg : g ≠ .copy) (hc : g' ≠ .copy) :
    (inside k g').movedPut = (inside k g).movedPut := by
  cases k with
  | put => simp [movedPut, hg, hc]
  | get => rfl

theorem movedGet_stage {k : Call} {g g' : Stage} (hg : g ≠ .copy) (hc : g' ≠ .copy) :
    (inside k g').movedGet = (inside k g).movedGet := by
  cases k with
  | put => rfl
  | get => simp [movedGet, hg, hc]

theorem half_stage {k : Call} {g : Stage} (hg : g ≠ .copy) :
    (inside k g).halfPut = [] ∧ (inside k g).halfGet = [] := by
  cases k <;> cases g <;> first | exact ⟨rfl, rfl⟩ | exact absurd rfl hg

theorem halfPut_unlocked (hl : P.locked = false) : P.halfPut = [] := by
  unfold halfPut
  split
  · cases hl
  · rfl

theorem halfGet_unlocked (hl : P.locked = false) : P.halfGet = [] := by
  unfold halfGet
  split
  · cases hl
  · rfl

end Place

/-! ## The invariant -/

/-- The entries of one thread. -/
def calls (t : Tid) (l : List (Tid × List Byte)) : List (List Byte) :=
  (l.filter fun e => e.1 = t).map Prod.snd

@[simp] theorem calls_append_self (t : Tid) (l : List (Tid × List Byte)) (x : List Byte) :
    calls t (l ++ [(t, x)]) = calls t l ++ [x] := by
  simp [calls]

theorem calls_append_other {t u : Tid} (h : u ≠ t) (l : List (Tid × List Byte)) (x : List Byte) :
    calls u (l ++ [(t, x)]) = calls u l := by
  simp [calls, h.symm]

def Traffic.allPuts (r : Traffic) : List Byte := r.puts.flatMap Prod.snd

def Traffic.allGets (r : Traffic) : List Byte := r.gets.flatMap Prod.snd

/-- The calls of `ioqueue_get_data` that returned, without their counts. -/
def Traffic.received (r : Traffic) : List (Tid × List Byte) :=
  r.getData.map fun e => (e.1, e.2.2)

/-- The transfers of each thread are its calls that returned and one that is about to. -/
structure Noted (r : Traffic) (place : Tid → Place) : Prop where
  putData : ∀ t, calls t r.puts = calls t r.putData ++ (place t).movedPut
  getData : ∀ t, calls t r.gets = calls t r.received ++ (place t).movedGet
  counts : ∀ e ∈ r.getData, e.2.2.length = e.2.1

/-- What the thread with the lock is in the middle of. -/
def Channel.half (c : Channel) (f : Place → List Byte) : List Byte :=
  match c.queue.queueLock.holder with
  | some t => f (c.place t)
  | none => []

structure Flow (p : Piped) (xs : List Byte) : Prop where
  carries : p.chan.queue.Carries xs
  owner : ∀ t, (p.chan.place t).locked = true ↔ p.chan.queue.queueLock.holder = some t
  sound : ∀ t, (p.chan.place t).Sound p.chan.queue.size.toNat xs
  stream : p.traffic.produced = p.traffic.consumed ++ xs
  produced : p.traffic.produced = p.traffic.allPuts ++ p.chan.half Place.halfPut
  consumed : p.traffic.consumed = p.traffic.allGets ++ p.chan.half Place.halfGet
  noted : Noted p.traffic p.chan.place


section Lemmas
variable {p p' : Piped} {xs xs' : List Byte} {t : Tid} {P : Place}

theorem Noted.move {r : Traffic} {place : Tid → Place} (h : Noted r place)
    (hp : P.movedPut = (place t).movedPut) (hg : P.movedGet = (place t).movedGet) :
    Noted r (Function.update place t P) := by
  refine ⟨fun u => ?_, fun u => ?_, h.counts⟩
  · rw [Function.apply_update (fun _ => Place.movedPut), hp, Function.update_eq_self_iff.mpr rfl]
    exact h.putData u
  · rw [Function.apply_update (fun _ => Place.movedGet), hg, Function.update_eq_self_iff.mpr rfl]
    exact h.getData u

/-- A step of one thread adds entries of that thread. -/
theorem Noted.update {r r' : Traffic} {place : Tid → Place} (h : Noted r place)
    (hp : calls t r'.puts = calls t r'.putData ++ P.movedPut)
    (hg : calls t r'.gets = calls t r'.received ++ P.movedGet)
    (ho : ∀ u, u ≠ t → calls u r'.puts = calls u r.puts ∧ calls u r'.putData = calls u r.putData ∧
      calls u r'.gets = calls u r.gets ∧ calls u r'.received = calls u r.received)
    (hc : ∀ e ∈ r'.getData, e.2.2.length = e.2.1) : Noted r' (Function.update place t P) := by
  refine ⟨fun u => ?_, fun u => ?_, hc⟩
  · by_cases hut : u = t
    · subst hut
      rwa [Function.update_self]
    · obtain ⟨h1, h2, -, -⟩ := ho u hut
      rw [Function.update_of_ne hut, h1, h2]
      exact h.putData u
  · by_cases hut : u = t
    · subst hut
      rwa [Function.update_self]
    · obtain ⟨-, -, h3, h4⟩ := ho u hut
      rw [Function.update_of_ne hut, h3, h4]
      exact h.getData u

namespace Flow

theorem half_eq (h : Flow p xs) (hl : (p.chan.place t).locked = true) (f : Place → List Byte) :
    p.chan.half f = f (p.chan.place t) := by
  rw [Channel.half, (h.owner t).mp hl]

theorem free (h : Flow p xs) (hh : p.chan.queue.queueLock.holder = none) (u : Tid) :
    (p.chan.place u).locked = false := by
  rw [← Bool.not_eq_true, h.owner u, hh]
  exact fun hc => by cases hc

theorem alone (h : Flow p xs) (hl : (p.chan.place t).locked = true) {u : Tid} (hu : u ≠ t) :
    (p.chan.place u).locked = false := by
  rw [← Bool.not_eq_true, h.owner u, (h.owner t).mp hl]
  exact fun hc => hu (Option.some.inj hc).symm

/-- A thread goes on without the lock. -/
theorem turn (h : Flow p xs) (hl : (p.chan.place t).locked = false) (hl' : P.locked = false)
    (hs : P.Sound p.chan.queue.size.toNat xs) (hq : p'.chan.queue = p.chan.queue)
    (hp : p'.chan.place = Function.update p.chan.place t P)
    (h1 : p'.traffic.produced = p.traffic.produced) (h2 : p'.traffic.consumed = p.traffic.consumed)
    (h3 : p'.traffic.allPuts = p.traffic.allPuts) (h4 : p'.traffic.allGets = p.traffic.allGets)
    (hn : Noted p'.traffic (Function.update p.chan.place t P)) : Flow p' xs := by
  have hhalf : ∀ f, p'.chan.half f = p.chan.half f := by
    intro f
    unfold Channel.half
    rw [hq, hp]
    split
    · next u hu =>
      have hut : u ≠ t := by
        rintro rfl
        rw [← h.owner u, hl] at hu
        cases hu
      rw [Function.update_of_ne hut]
    · rfl
  refine ⟨hq ▸ h.carries, fun u => ?_, fun u => ?_, ?_, ?_, ?_, hp ▸ hn⟩
  · rw [hq, hp]
    by_cases hut : u = t
    · subst hut
      rw [Function.update_self, hl', ← hl]
      exact h.owner u
    · rw [Function.update_of_ne hut]
      exact h.owner u
  · rw [hq, hp]
    by_cases hut : u = t
    · subst hut
      rwa [Function.update_self]
    · rw [Function.update_of_ne hut]
      exact h.sound u
  · rw [h1, h2]
    exact h.stream
  · rw [h1, h3, hhalf]
    exact h.produced
  · rw [h2, h4, hhalf]
    exact h.consumed

/-- The only thread that can have the lock goes on; it has the lock or leaves it free. -/
theorem own (h : Flow p xs) (ho : ∀ u, u ≠ t → (p.chan.place u).locked = false)
    (hown : P.locked = true ∧ p'.chan.queue.queueLock.holder = some t ∨
      P.locked = false ∧ p'.chan.queue.queueLock.holder = none)
    (hc : p'.chan.queue.Carries xs') (hz : p'.chan.queue.size = p.chan.queue.size)
    (hs : P.Sound p.chan.queue.size.toNat xs')
    (hp : p'.chan.place = Function.update p.chan.place t P)
    (h1 : p'.traffic.produced = p'.traffic.consumed ++ xs')
    (h2 : p'.traffic.produced = p'.traffic.allPuts ++ P.halfPut)
    (h3 : p'.traffic.consumed = p'.traffic.allGets ++ P.halfGet)
    (hn : Noted p'.traffic (Function.update p.chan.place t P)) : Flow p' xs' := by
  have hhalf : ∀ f : Place → List Byte, (P.locked = false → f P = []) → p'.chan.half f = f P := by
    intro f hf
    unfold Channel.half
    rcases hown with ⟨_, hh⟩ | ⟨hl, hh⟩
    · rw [hh, hp]
      exact congrArg f (Function.update_self ..)
    · rw [hh, hf hl]
  refine ⟨hc, fun u => ?_, fun u => ?_, h1, ?_, ?_, hp ▸ hn⟩
  · rw [hp]
    by_cases hut : u = t
    · subst hut
      rw [Function.update_self]
      rcases hown with ⟨hl, hh⟩ | ⟨hl, hh⟩
      · simp only [hl, hh]
      · simp [hl, hh]
    · rw [Function.update_of_ne hut, ho u hut]
      rcases hown with ⟨_, hh⟩ | ⟨_, hh⟩
      · simp [hh, Ne.symm hut]
      · simp [hh]
  · rw [hp, hz]
    by_cases hut : u = t
    · subst hut
      rwa [Function.update_self]
    · rw [Function.update_of_ne hut]
      exact (h.sound u).unlocked (ho u hut)
  · rw [hhalf _ Place.halfPut_unlocked]
    exact h2
  · rw [hhalf _ Place.halfGet_unlocked]
    exact h3


/-! ## The steps -/

/-- A step that moves nothing, by a thread without the lock. -/
theorem turn_same (h : Flow p xs) (hl : (p.chan.place t).locked = false) (hl' : P.locked = false)
    (hs : P.Sound p.chan.queue.size.toNat xs) (hm : P.movedPut = (p.chan.place t).movedPut)
    (hm' : P.movedGet = (p.chan.place t).movedGet) :
    Flow { p with chan := p.chan.goto t P } xs :=
  h.turn hl hl' hs rfl rfl rfl rfl rfl rfl (h.noted.move hm hm')

/-- A step of the thread with the lock that moves nothing. -/
theorem own_same (h : Flow p xs) (ho : ∀ u, u ≠ t → (p.chan.place u).locked = false)
    (hown : P.locked = true ∧ p'.chan.queue.queueLock.holder = some t ∨
      P.locked = false ∧ p'.chan.queue.queueLock.holder = none)
    (hc : p'.chan.queue.Carries xs) (hz : p'.chan.queue.size = p.chan.queue.size)
    (hs : P.Sound p.chan.queue.size.toNat xs)
    (hp : p'.chan.place = Function.update p.chan.place t P) (hr : p'.traffic = p.traffic)
    (hhalf : p.chan.half Place.halfPut = P.halfPut) (hhalf' : p.chan.half Place.halfGet = P.halfGet)
    (hm : P.movedPut = (p.chan.place t).movedPut) (hm' : P.movedGet = (p.chan.place t).movedGet) :
    Flow p' xs := by
  have hn := h.noted.move hm hm'
  rw [← hr] at hn
  refine h.own ho hown hc hz hs hp ?_ ?_ ?_ hn
  · rw [hr]
    exact h.stream
  · rw [hr, ← hhalf]
    exact h.produced
  · rw [hr, ← hhalf']
    exact h.consumed

theorem putData (h : Flow p xs) (hp : p.chan.place t = .outside) {data : List Byte}
    (hd : data.length + 1 < p.chan.queue.size.toNat) :
    Flow { p with chan := p.chan.goto t (.inside (.put data 0 []) .loop) } xs := by
  apply h.turn_same
  · rw [hp]
    rfl
  · rfl
  · exact .put hd (.inl rfl) (by decide) (by simp)
  · rw [hp]
    rfl
  · rw [hp]
    rfl

theorem getData (h : Flow p xs) (hp : p.chan.place t = .outside) {count : Nat}
    (hd : count + 1 < p.chan.queue.size.toNat) :
    Flow { p with chan := p.chan.goto t (.inside (.get count []) .loop) } xs := by
  apply h.turn_same
  · rw [hp]
    rfl
  · rfl
  · exact .get hd (.inl rfl) (by decide) (by simp)
  · rw [hp]
    rfl
  · rw [hp]
    rfl

/-- The return of a put. -/
theorem return_put (h : Flow p xs) {data wData : List Byte} {written : Nat}
    (hp : p.chan.place t = .inside (.put data written wData) .loop) (hw : data.length ≤ written)
    {r : Traffic} (hr : r = { p.traffic with
      puts := if data = [] then p.traffic.puts ++ [(t, [])] else p.traffic.puts
      putData := p.traffic.putData ++ [(t, data)] }) :
    Flow ⟨p.chan.goto t .outside, r⟩ xs := by
  have hnp := h.noted.putData t
  have hng := h.noted.getData t
  have hs := h.sound t
  rw [hp] at hnp hng hs
  subst hr
  refine h.turn (t := t) (by rw [hp]; rfl) rfl .outside rfl rfl rfl rfl ?_ rfl ?_
  · by_cases hd : data = []
    · simp [Traffic.allPuts, hd]
    · simp [Traffic.allPuts, hd]
  · apply h.noted.update
    · by_cases hd : data = []
      · subst hd
        have h0 : written = 0 := by
          cases hs with
          | put _ hw' => rcases hw' with hw' | hw' <;> exact hw'
        simpa [h0, Place.movedPut] using hnp
      · have h0 : 0 < written := Nat.lt_of_lt_of_le (List.length_pos_iff.mpr hd) hw
        simpa [h0, hd, Place.movedPut] using hnp
    · exact hng
    · intro u hu
      refine ⟨?_, calls_append_other hu _ _, rfl, rfl⟩
      by_cases hd : data = []
      · simp [hd, calls_append_other hu]
      · simp [hd]
    · exact h.noted.counts

/-- The return of a get. -/
theorem return_get (h : Flow p xs) {got : List Byte} {count : Nat}
    (hp : p.chan.place t = .inside (.get count got) .loop) (hw : count ≤ got.length)
    {r : Traffic} (hr : r = { p.traffic with
      gets := if count = 0 then p.traffic.gets ++ [(t, [])] else p.traffic.gets
      getData := p.traffic.getData ++ [(t, count, got)] }) :
    Flow ⟨p.chan.goto t .outside, r⟩ xs := by
  have hnp := h.noted.putData t
  have hng := h.noted.getData t
  have hs := h.sound t
  rw [hp] at hnp hng hs
  have hlen : got.length = count := by
    cases hs with
    | get _ hw' =>
      rcases hw' with rfl | hw'
      · exact Nat.le_antisymm (Nat.zero_le _) hw
      · exact hw'
  have hrec : r.received = p.traffic.received ++ [(t, got)] := by
    subst hr
    simp [Traffic.received]
  subst hr
  refine h.turn (t := t) (by rw [hp]; rfl) rfl .outside rfl rfl rfl rfl rfl ?_ ?_
  · by_cases hd : count = 0
    · simp [Traffic.allGets, hd]
    · simp [Traffic.allGets, hd]
  · apply h.noted.update
    · exact hnp
    · rw [hrec]
      by_cases hd : count = 0
      · have h0 : got = [] := List.eq_nil_of_length_eq_zero (hlen.trans hd)
        simpa [h0, hd, Place.movedGet] using hng
      · have h0 : got ≠ [] := fun h0 => hd (by rw [← hlen, h0]; rfl)
        simpa [h0, hd, Place.movedGet] using hng
    · intro u hu
      rw [hrec]
      refine ⟨rfl, rfl, ?_, calls_append_other hu _ _⟩
      by_cases hd : count = 0
      · simp [hd, calls_append_other hu]
      · simp [hd]
    · intro e he
      rcases List.mem_append.mp he with he | he
      · exact h.noted.counts e he
      · cases List.mem_singleton.mp he
        exact hlen

/-- One byte goes in. -/
theorem copy_put (h : Flow p xs) {data wData : List Byte} {written : Nat}
    (hp : p.chan.place t = .inside (.put data written wData) .copy)
    (hm : written < data.length) {x : Byte} (hx : x = wData.headD 0)
    (hq : p'.chan.queue = ((Call.put data written wData).copy p.chan.queue).2)
    (hp' : p'.chan.place = Function.update p.chan.place t
      (.inside (.put data (written + 1) wData.tail) .copy))
    (hr : p'.traffic = { p.traffic with produced := p.traffic.produced ++ [x] }) :
    Flow p' (xs ++ [x]) := by
  have hl : (p.chan.place t).locked = true := by
    rw [hp]
    rfl
  have hpr := h.produced
  have hco := h.consumed
  have hs := h.sound t
  rw [h.half_eq hl, hp] at hpr hco
  rw [hp] at hs
  cases hs with
  | put _ _ hc => exact absurd rfl hc
  | putCopy hn h0 hw hroom hsuf =>
    have hget : data.drop written = x :: data.drop (written + 1) := by
      rw [hx, List.drop_eq_getElem_cons hm]
      rfl
    have htake : data.take written ++ [x] = data.take (written + 1) := by
      rw [List.take_add_one, List.getElem?_eq_getElem hm]
      rw [List.drop_eq_getElem_cons hm] at hget
      rw [← (List.cons.inj hget).1]
      rfl
    have hcarr := h.carries.write (x := x) (by omega)
    refine h.own (fun u hu => h.alone hl hu) (.inl ⟨rfl, ?_⟩) ?_ ?_ ?_ hp' ?_ ?_ ?_ ?_
    · rw [hq]
      exact (h.owner t).mp hl
    · rw [hq, hx] at *
      exact hcarr
    · rw [hq]
      rfl
    · rw [hget]
      refine .putCopy hn h0 hm ?_ ?_
      · rw [List.length_append, List.length_singleton]
        omega
      · rw [← htake]
        exact List.suffix_append_self_iff.mpr hsuf
    · rw [hr, h.stream, List.append_assoc]
    · rw [hr]
      change p.traffic.produced ++ [x] = p.traffic.allPuts ++ data.take (written + 1)
      rw [hpr, ← htake, ← List.append_assoc]
      rfl
    · rw [hr]
      exact hco
    · have hn' := h.noted.move (t := t)
        (P := .inside (.put data (written + 1) (data.drop written).tail) .copy)
        (by rw [hp]; rfl) (by rw [hp]; rfl)
      rw [hr]
      exact ⟨hn'.putData, hn'.getData, hn'.counts⟩

/-- One byte comes out. -/
theorem copy_get (h : Flow p xs) {got : List Byte} {count : Nat}
    (hp : p.chan.place t = .inside (.get count got) .copy) (hm : got.length < count) {x : Byte}
    (hx : x = p.chan.queue.buf p.chan.queue.consumorP.toNat)
    (hq : p'.chan.queue = ((Call.get count got).copy p.chan.queue).2)
    (hp' : p'.chan.place = Function.update p.chan.place t (.inside (.get count (got ++ [x])) .copy))
    (hr : p'.traffic = { p.traffic with consumed := p.traffic.consumed ++ [x] }) :
    Flow p' xs.tail := by
  have hl : (p.chan.place t).locked = true := by
    rw [hp]
    rfl
  have hpr := h.produced
  have hco := h.consumed
  have hs := h.sound t
  rw [h.half_eq hl, hp] at hpr hco
  rw [hp] at hs
  cases hs with
  | get _ _ hc => exact absurd rfl hc
  | getCopy hn h0 hw hrest =>
    cases xs with
    | nil =>
      simp only [List.length_nil] at hrest
      omega
    | cons y ys =>
      obtain ⟨hy, hcarr⟩ := h.carries.read
      have hxy : x = y := hx.trans hy
      subst hxy
      refine h.own (fun u hu => h.alone hl hu) (.inl ⟨rfl, ?_⟩) ?_ ?_ ?_ hp' ?_ ?_ ?_ ?_
      · rw [hq]
        exact (h.owner t).mp hl
      · rw [hq]
        exact hcarr
      · rw [hq]
        rfl
      · refine .getCopy hn h0 ?_ ?_
        · rw [List.length_append, List.length_singleton]
          omega
        · rw [List.length_append, List.length_singleton, List.tail_cons]
          rw [List.length_cons] at hrest
          omega
      · rw [hr, h.stream, List.append_assoc]
        rfl
      · rw [hr]
        exact hpr
      · rw [hr]
        change p.traffic.consumed ++ [x] = p.traffic.allGets ++ (got ++ [x])
        rw [hco, List.append_assoc]
        rfl
      · have hn' := h.noted.move (t := t) (P := .inside (.get count (got ++ [x])) .copy)
          (by rw [hp]; rfl) (by rw [hp]; rfl)
        rw [hr]
        exact ⟨hn'.putData, hn'.getData, hn'.counts⟩

/-- The end of the inner loop of a put, where nothing is left to write. -/
theorem commit_put (h : Flow p xs) {data wData : List Byte} {written : Nat}
    (hp : p.chan.place t = .inside (.put data written wData) .copy)
    (hm : (Call.put data written wData).copying p.chan.queue = false)
    (hq : p'.chan.queue = p.chan.queue)
    (hp' : p'.chan.place = Function.update p.chan.place t (.inside (.put data written wData) .wake))
    (hr : p'.traffic = { p.traffic with puts := p.traffic.puts ++ [(t, data.take written)] }) :
    Flow p' xs := by
  have hl : (p.chan.place t).locked = true := by
    rw [hp]
    rfl
  have hnp := h.noted.putData t
  have hng := h.noted.getData t
  have hpr := h.produced
  have hco := h.consumed
  have hs := h.sound t
  rw [h.half_eq hl, hp] at hpr hco
  rw [hp] at hs hnp hng
  cases hs with
  | put _ _ hc => exact absurd rfl hc
  | putCopy hn h0 hw hroom hsuf =>
    have hall : written = data.length := by
      apply Nat.le_antisymm hw
      apply Nat.le_of_not_lt
      intro hlt
      simp only [Call.copying, hlt, and_true, decide_eq_false_iff_not] at hm
      apply hm
      apply BitVec.lt_def.mpr
      rw [h.carries.avaliable_eq]
      simp only [BitVec.ofNat_eq_ofNat, BitVec.toNat_zero]
      omega
    subst hall
    rw [List.take_length] at hr
    change p.traffic.produced = p.traffic.allPuts ++ data.take data.length at hpr
    rw [List.take_length] at hpr
    refine h.own (fun u hu => h.alone hl hu) (.inl ⟨rfl, ?_⟩) ?_ ?_ ?_ hp' ?_ ?_ ?_ ?_
    · rw [hq]
      exact (h.owner t).mp hl
    · rw [hq]
      exact h.carries
    · rw [hq]
    · exact .put hn (.inr rfl) (by decide) (by simp)
    · rw [hr]
      exact h.stream
    · rw [hr, hpr]
      simp [Traffic.allPuts, Place.halfPut]
    · rw [hr]
      exact hco
    · rw [hr]
      apply h.noted.update
      · rw [calls_append_self, hnp]
        simp [Place.movedPut, h0]
      · exact hng
      · intro u hu
        exact ⟨calls_append_other hu _ _, rfl, rfl, rfl⟩
      · exact h.noted.counts

/-- The end of the inner loop of a get, where nothing is left to read. -/
theorem commit_get (h : Flow p xs) {got : List Byte} {count : Nat}
    (hp : p.chan.place t = .inside (.get count got) .copy)
    (hm : (Call.get count got).copying p.chan.queue = false) (hq : p'.chan.queue = p.chan.queue)
    (hp' : p'.chan.place = Function.update p.chan.place t (.inside (.get count got) .wake))
    (hr : p'.traffic = { p.traffic with gets := p.traffic.gets ++ [(t, got)] }) : Flow p' xs := by
  have hl : (p.chan.place t).locked = true := by
    rw [hp]
    rfl
  have hnp := h.noted.putData t
  have hng := h.noted.getData t
  have hpr := h.produced
  have hco := h.consumed
  have hs := h.sound t
  rw [h.half_eq hl, hp] at hpr hco
  rw [hp] at hs hnp hng
  cases hs with
  | get _ _ hc => exact absurd rfl hc
  | getCopy hn h0 hw hrest =>
    have hall : got.length = count := by
      apply Nat.le_antisymm hw
      apply Nat.le_of_not_lt
      intro hlt
      simp only [Call.copying, hlt, and_true, decide_eq_false_iff_not] at hm
      apply hm
      apply BitVec.lt_def.mpr
      rw [h.carries.unread_eq]
      simp only [BitVec.ofNat_eq_ofNat, BitVec.toNat_zero]
      omega
    have hne : got ≠ [] := by
      rintro rfl
      rw [← hall] at h0
      cases h0
    refine h.own (fun u hu => h.alone hl hu) (.inl ⟨rfl, ?_⟩) ?_ ?_ ?_ hp' ?_ ?_ ?_ ?_
    · rw [hq]
      exact (h.owner t).mp hl
    · rw [hq]
      exact h.carries
    · rw [hq]
    · exact .get hn (.inr hall) (by decide) (by simp)
    · rw [hr]
      exact h.stream
    · rw [hr]
      exact hpr
    · rw [hr, hco]
      simp [Traffic.allGets, Place.halfGet]
    · rw [hr]
      apply h.noted.update
      · exact hnp
      · rw [calls_append_self]
        change calls t p.traffic.gets ++ [got] = calls t p.traffic.received ++ _
        rw [hng]
        simp [Place.movedGet, hne]
      · intro u hu
        exact ⟨rfl, rfl, calls_append_other hu _ _, rfl⟩
      · exact h.noted.counts

/-- The thread with the lock goes on with the call outside of the inner loop. -/
theorem own_stage (h : Flow p xs) {k : Call} {g : Stage} (g' : Stage) (hp : p.chan.place t = .inside k g)
    (hl : (Place.inside k g).locked = true) (hg : g ≠ .copy) (hc : g' ≠ .copy) (hf : g' ≠ .fetch)
    (ht : g' ≠ .test)
    (hown : (Place.inside k g').locked = true ∧ p'.chan.queue = p.chan.queue ∨
      (Place.inside k g').locked = false ∧
        p'.chan.queue = { p.chan.queue with queueLock := Lock.init })
    (hp' : p'.chan.place = Function.update p.chan.place t (.inside k g'))
    (hr : p'.traffic = p.traffic) : Flow p' xs := by
  have hs := h.sound t
  rw [← hp] at hl
  have hh := (h.owner t).mp hl
  rw [hp] at hs
  refine h.own_same (fun u hu => h.alone hl hu) ?_ ?_ ?_ (hs.stage hg hc hf ht) hp' hr ?_ ?_ ?_ ?_
  · rcases hown with ⟨h1, h2⟩ | ⟨h1, h2⟩
    · exact .inl ⟨h1, by rw [h2, hh]⟩
    · exact .inr ⟨h1, by rw [h2]; rfl⟩
  · rcases hown with ⟨_, h2⟩ | ⟨_, h2⟩
    · rw [h2]
      exact h.carries
    · rw [h2]
      exact ⟨h.carries.small, h.carries.ring, h.carries.tail⟩
  · rcases hown with ⟨_, h2⟩ | ⟨_, h2⟩ <;> rw [h2]
  · rw [h.half_eq hl, hp, (Place.half_stage hg).1, (Place.half_stage hc).1]
  · rw [h.half_eq hl, hp, (Place.half_stage hg).2, (Place.half_stage hc).2]
  · rw [hp, Place.movedPut_stage hg hc]
  · rw [hp, Place.movedGet_stage hg hc]

/-- The lock is free and the thread takes it. -/
theorem fetch (h : Flow p xs) {k : Call} (hp : p.chan.place t = .inside k .fetch)
    (hh : p.chan.queue.queueLock.holder = none)
    (hq : p'.chan.queue = { p.chan.queue with queueLock := ⟨some t, 0, 1⟩ })
    (hp' : p'.chan.place = Function.update p.chan.place t (.inside k .test))
    (hr : p'.traffic = p.traffic) : Flow p' xs := by
  have hs := h.sound t
  rw [hp] at hs
  have hhalf : ∀ f, p.chan.half f = [] := fun f => by rw [Channel.half, hh]
  refine h.own_same (fun u _ => h.free hh u) (.inl ⟨rfl, by rw [hq]⟩) ?_ (by rw [hq]) ?_ hp' hr
    ?_ ?_ ?_ ?_
  · rw [hq]
    exact ⟨h.carries.small, h.carries.ring, h.carries.tail⟩
  · cases hs with
    | put hn hw _ hg => exact .put hn hw (by decide) fun _ => hg (.inl rfl)
    | get hn hw _ hg => exact .get hn hw (by decide) fun _ => hg (.inl rfl)
  · rw [hhalf]
    exact (Place.half_stage (g := .test) (by decide)).1.symm
  · rw [hhalf]
    exact (Place.half_stage (g := .test) (by decide)).2.symm
  · rw [hp]
    exact Place.movedPut_stage (by decide) (by decide)
  · rw [hp]
    exact Place.movedGet_stage (by decide) (by decide)

/-- The test for room or for data: if it succeeds, all can be moved. -/
theorem test (h : Flow p xs) {k : Call} (hp : p.chan.place t = .inside k .test)
    (hq : p'.chan.queue = p.chan.queue)
    (hp' : p'.chan.place = Function.update p.chan.place t
      (.inside k.begin (if k.begin.fits p.chan.queue then .copy else .wake)))
    (hr : p'.traffic = p.traffic) : Flow p' xs := by
  have hl : (p.chan.place t).locked = true := by
    rw [hp]
    rfl
  have hs := h.sound t
  have hsmall := h.carries.small
  rw [hp] at hs
  cases hs with
  | @put data written wData _ hn hw _ hg =>
    obtain ⟨rfl, h0⟩ := hg (.inr rfl)
    refine h.own_same (P := .inside (.put data 0 data) _) (fun u hu => h.alone hl hu)
      (.inl ⟨?_, by rw [hq]; exact (h.owner t).mp hl⟩) (hq ▸ h.carries) (by rw [hq]) ?_ hp' hr
      ?_ ?_ ?_ ?_
    · split <;> rfl
    · split
      · next hfits =>
        have hlt := BitVec.lt_def.mp (of_decide_eq_true hfits)
        rw [h.carries.avaliable_eq, BitVec.toNat_ofNat, Nat.mod_eq_of_lt (by omega)] at hlt
        refine .putCopy hn h0 (Nat.zero_le _) (by omega) ?_
        exact List.nil_suffix
      · exact .put hn (.inl rfl) (by decide) (by simp)
    · rw [h.half_eq hl, hp]
      split <;> rfl
    · rw [h.half_eq hl, hp]
      split <;> rfl
    · rw [hp]
      split <;> rfl
    · rw [hp]
      split <;> rfl
  | @get count got _ hn hw _ hg =>
    obtain ⟨rfl, h0⟩ := hg (.inr rfl)
    refine h.own_same (P := .inside (.get count []) _) (fun u hu => h.alone hl hu)
      (.inl ⟨?_, by rw [hq]; exact (h.owner t).mp hl⟩) (hq ▸ h.carries) (by rw [hq]) ?_ hp' hr
      ?_ ?_ ?_ ?_
    · split <;> rfl
    · split
      · next hfits =>
        have hle := BitVec.le_def.mp (of_decide_eq_true hfits)
        rw [h.carries.unread_eq, BitVec.toNat_ofNat, Nat.mod_eq_of_lt (by omega)] at hle
        refine .getCopy hn h0 (Nat.zero_le _) ?_
        rwa [List.length_nil, Nat.sub_zero]
      · exact .get hn (.inl rfl) (by decide) (by simp)
    · rw [h.half_eq hl, hp]
      split <;> rfl
    · rw [h.half_eq hl, hp]
      split <;> rfl
    · rw [hp]
      split <;> rfl
    · rw [hp]
      split <;> rfl

theorem loop (h : Flow p xs) {k : Call} (hp : p.chan.place t = .inside k .loop)
    (hu : k.unfinished = true) : Flow { p with chan := p.chan.goto t (.inside k .fetch) } xs := by
  have hs := h.sound t
  rw [hp] at hs
  refine h.turn_same (by rw [hp]; rfl) rfl ?_ ?_ ?_
  · cases hs with
    | put hn hw hc _ =>
      have hlt := of_decide_eq_true hu
      refine .put hn hw (by decide) fun _ => ?_
      rcases hw with hw | hw <;> omega
    | @get count got _ hn hw hc _ =>
      have hlt := of_decide_eq_true hu
      refine .get hn hw (by decide) fun _ => ?_
      rcases hw with rfl | hw
      · exact ⟨rfl, hlt⟩
      · omega
  · rw [hp]
    exact Place.movedPut_stage (by decide) (by decide)
  · rw [hp]
    exact Place.movedGet_stage (by decide) (by decide)

theorem blocked (h : Flow p xs) {k : Call} (hp : p.chan.place t = .inside k .blocked) :
    Flow { p with chan := p.chan.goto t (.inside k .loop) } xs := by
  have hs := h.sound t
  rw [hp] at hs
  refine h.turn_same (by rw [hp]; rfl) rfl (hs.stage ?_ ?_ ?_ ?_) ?_ ?_
  all_goals try decide
  · rw [hp]
    exact Place.movedPut_stage (by decide) (by decide)
  · rw [hp]
    exact Place.movedGet_stage (by decide) (by decide)

/-- At the end of the outer loop the call returns. -/
theorem leave (h : Flow p xs) {k : Call} (hp : p.chan.place t = .inside k .loop)
    (hu : k.unfinished = false) :
    Flow ⟨p.chan.goto t .outside, p.traffic.note p.chan.queue t (.inside k .loop)⟩ xs := by
  cases k with
  | put data written wData =>
    have hw := of_decide_eq_false hu
    exact h.return_put hp (Nat.le_of_not_lt hw) (if_neg hw)
  | get count got =>
    have hw := of_decide_eq_false hu
    exact h.return_get hp (Nat.le_of_not_lt hw) (if_neg hw)

/-- The inner loop. -/
theorem copy (h : Flow p xs) {k : Call} (hp : p.chan.place t = .inside k .copy) {c : Channel}
    (hc : (if k.copying p.chan.queue then
        some ({ p.chan with queue := (k.copy p.chan.queue).2 }.goto t
          (.inside (k.copy p.chan.queue).1 .copy))
      else some (p.chan.goto t (.inside k .wake))) = some c) :
    ∃ xs', Flow ⟨c, p.traffic.note p.chan.queue t (.inside k .copy)⟩ xs' := by
  by_cases hm : k.copying p.chan.queue = true
  · rw [if_pos hm] at hc
    obtain rfl := Option.some.inj hc
    cases k with
    | put data written wData =>
      exact ⟨_, h.copy_put hp (of_decide_eq_true hm).2 rfl rfl rfl (if_pos hm)⟩
    | get count got =>
      exact ⟨_, h.copy_get hp (of_decide_eq_true hm).2 rfl rfl rfl (if_pos hm)⟩
  · rw [if_neg hm] at hc
    obtain rfl := Option.some.inj hc
    have hm' := Bool.not_eq_true _ ▸ hm
    cases k with
    | put data written wData => exact ⟨_, h.commit_put hp hm' rfl rfl (if_neg hm)⟩
    | get count got => exact ⟨_, h.commit_get hp hm' rfl rfl (if_neg hm)⟩

theorem advance (h : Flow p xs) (hcan : p.chan.CanStep t) {c : Channel}
    (hc : p.chan.advance t = some c) :
    ∃ xs', Flow ⟨c, p.traffic.note p.chan.queue t (p.chan.place t)⟩ xs' := by
  unfold Channel.advance at hc
  unfold Channel.CanStep at hcan
  cases hp : p.chan.place t with
  | outside =>
    rw [hp] at hcan
    exact hcan.elim
  | inside k g =>
    rw [hp] at hc hcan
    have hnote : g ≠ .loop → g ≠ .copy → p.traffic.note p.chan.queue t (.inside k g) = p.traffic := by
      intro h1 h2
      cases k <;> cases g <;> first | rfl | exact absurd rfl h1 | exact absurd rfl h2
    cases g with
    | loop =>
      obtain rfl := Option.some.inj hc
      by_cases hu : k.unfinished = true
      · have hn : p.traffic.note p.chan.queue t (.inside k .loop) = p.traffic := by
          cases k <;> exact if_pos (of_decide_eq_true hu)
        rw [if_pos hu, hn]
        exact ⟨xs, h.loop hp hu⟩
      · rw [if_neg hu]
        exact ⟨xs, h.leave hp (Bool.not_eq_true _ ▸ hu)⟩
    | fetch =>
      obtain rfl := Option.some.inj hc
      exact ⟨xs, h.fetch hp hcan rfl rfl (hnote (by decide) (by decide))⟩
    | test =>
      obtain rfl := Option.some.inj hc
      exact ⟨xs, h.test hp rfl rfl (hnote (by decide) (by decide))⟩
    | copy => exact h.copy hp hc
    | wake =>
      obtain rfl := Option.some.inj hc
      refine ⟨xs, h.own_stage .woke hp rfl (by decide) (by decide) (by decide) (by decide)
        (.inl ⟨rfl, ?_⟩) ?_ (hnote (by decide) (by decide))⟩
      · cases k <;> rfl
      · cases k <;> rfl
    | woke =>
      by_cases hu : k.unfinished = true
      · simp only [if_pos hu] at hc
        split at hc
        · cases hc
        · obtain rfl := Option.some.inj hc
          refine ⟨xs, h.own_stage .sleep hp rfl (by decide) (by decide) (by decide) (by decide)
            (.inl ⟨rfl, ?_⟩) ?_ (hnote (by decide) (by decide))⟩
          · cases k <;> rfl
          · cases k <;> rfl
      · simp only [if_neg hu] at hc
        obtain rfl := Option.some.inj hc
        exact ⟨xs, h.own_stage .release hp rfl (by decide) (by decide) (by decide) (by decide)
          (.inl ⟨rfl, rfl⟩) rfl (hnote (by decide) (by decide))⟩
    | sleep =>
      obtain rfl := Option.some.inj hc
      exact ⟨xs, h.own_stage .blocked hp rfl (by decide) (by decide) (by decide) (by decide)
        (.inr ⟨rfl, rfl⟩) rfl (hnote (by decide) (by decide))⟩
    | blocked =>
      obtain rfl := Option.some.inj hc
      rw [hnote (by decide) (by decide)]
      exact ⟨xs, h.blocked hp⟩
    | release =>
      obtain rfl := Option.some.inj hc
      exact ⟨xs, h.own_stage .loop hp rfl (by decide) (by decide) (by decide) (by decide)
        (.inr ⟨rfl, rfl⟩) rfl (hnote (by decide) (by decide))⟩

/-- Others cannot reach a queue that fits into its pages. -/
theorem disturb (h : Flow p xs) (hfit : p.chan.queue.size.toNat ≤ bufRoom p.chan.queue.size)
    (b : Nat → Byte) :
    Flow { p with chan := { p.chan with queue := p.chan.queue.disturb b } } xs := by
  refine ⟨⟨h.carries.small, h.carries.ring.congr fun i hi => ?_, h.carries.tail⟩, h.owner, h.sound,
    h.stream, h.produced, h.consumed, h.noted⟩
  exact if_pos (Nat.lt_of_lt_of_le hi hfit)

theorem start {size : BitVec 32} (h0 : 0 < size.toNat) (h : size.toNat < 2 ^ 31) :
    Flow (.start (.init size)) [] := by
  refine ⟨.init h0 h, fun t => ?_, fun t => .outside, rfl, rfl, rfl, ?_⟩
  · constructor <;> intro hc <;> cases hc
  · exact ⟨fun t => rfl, fun t => rfl, fun e he => by cases he⟩

end Flow

/-! ## The law -/

structure StreamLaw (p : Piped) : Prop where
  /-- What came out is the beginning of the whole puts. -/
  whole : p.traffic.consumed <+: p.traffic.allPuts
  /-- What went in and did not come out yet lies in the queue. -/
  carried : ∃ xs, p.traffic.produced = p.traffic.consumed ++ xs ∧ p.chan.queue.Carries xs
  /-- The bytes of a put stand together, and so do those of a get. -/
  produced : p.traffic.produced = p.traffic.allPuts ++ p.chan.half Place.halfPut
  consumed : p.traffic.consumed = p.traffic.allGets ++ p.chan.half Place.halfGet
  noted : Noted p.traffic p.chan.place
  producer_lt : p.chan.queue.producerP.toNat < p.chan.queue.size.toNat
  consumor_lt : p.chan.queue.consumorP.toNat < p.chan.queue.size.toNat

theorem Flow.law (h : Flow p xs) : StreamLaw p := by
  refine ⟨?_, ⟨xs, h.stream, h.carries⟩, h.produced, h.consumed, h.noted, h.carries.producer_lt,
    h.carries.ring.start⟩
  -- what is only put in part is still in the queue
  have hhalf : p.chan.half Place.halfPut <:+ xs := by
    unfold Channel.half
    split
    · next t _ =>
      have hs := h.sound t
      cases hp : p.chan.place t with
      | outside => exact List.nil_suffix
      | inside k g =>
        rw [hp] at hs
        cases hs with
        | put _ _ hc =>
          rw [(Place.half_stage hc).1]
          exact List.nil_suffix
        | putCopy _ _ _ _ hsuf => exact hsuf
        | get | getCopy => exact List.nil_suffix
    · exact List.nil_suffix
  obtain ⟨ys, hys⟩ := hhalf
  have hp := h.produced
  rw [h.stream, ← hys, ← List.append_assoc] at hp
  exact ⟨ys, List.append_cancel_right hp⟩

end Lemmas

@[simp] theorem wakeUp_queue (c : Channel) (k : Call) : (c.wakeUp k).queue = c.queue := by
  cases k <;> rfl

@[simp] theorem addToWaitingList_queue (c : Channel) (t : Tid) (k : Call) :
    (c.addToWaitingList t k).queue = c.queue := by
  cases k <;> rfl

@[simp] theorem copy_size (q : CircleQueue) (k : Call) : (k.copy q).2.size = q.size := by
  cases k <;> rfl

@[simp] theorem goto_queue (c : Channel) (t : Tid) (P : Place) : (c.goto t P).queue = c.queue := rfl

@[simp] theorem setLock_size (c : Channel) (l : Lock) : (c.setLock l).queue.size = c.queue.size :=
  rfl

theorem advance_size {c c' : Channel} {t : Tid} (h : c.advance t = some c') :
    c'.queue.size = c.queue.size := by
  unfold Channel.advance at h
  split at h
  all_goals try split at h
  all_goals try split at h
  all_goals first
    | cases h; done
    | obtain rfl := Option.some.inj h; simp

namespace Piped

/-- A queue whose `buf` lies in its pages. -/
def Fits (size : BitVec 32) : Prop := 0 < size.toNat ∧ size.toNat ≤ bufRoom size

instance (size : BitVec 32) : Decidable (Fits size) := inferInstanceAs (Decidable (_ ∧ _))

theorem flow_advance {p p' : Piped} {xs : List Byte} {t : Tid} (h : Flow p xs)
    (hs : p.Step (.step t) p') : ∃ xs', Flow p' xs' := by
  obtain ⟨hcan, hadv, hr⟩ := hs
  obtain ⟨c, r⟩ := p'
  subst hr
  exact h.advance hcan hadv

theorem flow_step {p p' : Piped} {size : BitVec 32} (hfit : Fits size) {e : Move}
    (h : p.chan.queue.size = size ∧ ∃ xs, Flow p xs) (hok : p.Small e) (hs : p.Step e p') :
    p'.chan.queue.size = size ∧ ∃ xs, Flow p' xs := by
  obtain ⟨hz, xs, hf⟩ := h
  cases e with
  | putData t data =>
    obtain ⟨hp, rfl⟩ := hs
    exact ⟨hz, xs, hf.putData hp hok⟩
  | getData t count =>
    obtain ⟨hp, rfl⟩ := hs
    exact ⟨hz, xs, hf.getData hp hok⟩
  | step t =>
    exact ⟨(advance_size hs.2.1).trans hz, flow_advance hf hs⟩
  | disturb b =>
    subst hs
    refine ⟨hz, xs, hf.disturb ?_ b⟩
    rw [hz]
    exact hfit.2

/-- The calls on a queue that fits into its pages make a stream of bytes. -/
theorem stream_of_fits {free : Nat} {size : BitVec 32} {q : CircleQueue}
    (hq : initIoqueue free size = some q) (hfit : Fits size) {es : List Move} {p : Piped}
    (h : Run (Guarded Small Step) (start q) es p) : StreamLaw p := by
  obtain ⟨rfl, hsmall⟩ := initIoqueue_size hq
  obtain ⟨-, xs, hf⟩ := h.guarded_invariant (I := fun p => p.chan.queue.size = size ∧ ∃ xs, Flow p xs)
    (fun _ _ _ => flow_step hfit) ⟨rfl, [], .start hfit.1 hsmall⟩
  exact hf.law

/-! ## A run that moves bytes -/

instance (c : Channel) (t : Tid) : Decidable (c.CanStep t) :=
  decidable_of_iff ((match c.place t with
    | .outside => false
    | .inside _ .fetch => c.queue.queueLock.holder == none
    | .inside k .blocked => !(c.waitingList k).contains t
    | .inside _ _ => true) = true) (by
      unfold Channel.CanStep
      cases c.place t with
      | outside => simp
      | inside k g => cases g <;> simp)

/-- The step of a move with a small count. -/
def next (p : Piped) : Move → Option Piped
  | .putData t data =>
    if p.chan.place t = .outside ∧ data.length + 1 < p.chan.queue.size.toNat then
      some { p with chan := p.chan.goto t (.inside (.put data 0 []) .loop) }
    else none
  | .getData t count =>
    if p.chan.place t = .outside ∧ count + 1 < p.chan.queue.size.toNat then
      some { p with chan := p.chan.goto t (.inside (.get count []) .loop) }
    else none
  | .step t =>
    if p.chan.CanStep t then
      (p.chan.advance t).map fun c => ⟨c, p.traffic.note p.chan.queue t (p.chan.place t)⟩
    else none
  | .disturb b => some { p with chan := { p.chan with queue := p.chan.queue.disturb b } }

theorem next_step (p : Piped) (e : Move) (p' : Piped) (h : p.next e = some p') :
    Guarded Small Step p e p' := by
  cases e with
  | putData t data =>
    obtain ⟨⟨hp, hsmall⟩, h⟩ := Option.ite_none_right_eq_some.mp h
    exact ⟨hsmall, hp, (Option.some.inj h).symm⟩
  | getData t count =>
    obtain ⟨⟨hp, hsmall⟩, h⟩ := Option.ite_none_right_eq_some.mp h
    exact ⟨hsmall, hp, (Option.some.inj h).symm⟩
  | step t =>
    obtain ⟨hcan, h⟩ := Option.ite_none_right_eq_some.mp h
    obtain ⟨c, hc, rfl⟩ := Option.map_eq_some_iff.mp h
    exact ⟨trivial, hcan, hc, rfl⟩
  | disturb b => exact ⟨trivial, (Option.some.inj h).symm⟩

/-- Thread 1 waits for two bytes. Others write behind the page, thread 0 puts the bytes, and thread 1
wakes and takes them. -/
def twoBytes : List Move :=
  .getData 1 2 :: List.replicate 6 (.step 1) ++ [.disturb fun _ => 1, .putData 0 [7, 8]] ++
    List.replicate 10 (.step 0) ++ List.replicate 11 (.step 1)

theorem stream_of_fits_two : ∃ p, p.traffic.putData = [(0, [7, 8])] ∧
    p.traffic.getData = [(1, 2, [7, 8])] ∧ StreamLaw p := by
  have h : (twoBytes.foldlM next (start (.init 4000))).map
      (fun p => (p.traffic.putData, p.traffic.getData)) = some ([(0, [7, 8])], [(1, 2, [7, 8])]) := by
    decide +kernel
  obtain ⟨p, hp, ht⟩ := Option.map_eq_some_iff.mp h
  have hrun : Run (Guarded Small Step) (start (.init 4000)) twoBytes p := .of_foldlM next_step hp
  obtain ⟨hput, hget⟩ := Prod.mk.inj ht
  exact ⟨p, hput, hget, @stream_of_fits 1 4000 _ rfl (by decide) _ _ hrun⟩

/-! ## A queue that does not fit -/

/-- The thread `t` is in the inner loop of a put, with nobody else inside. -/
structure Writing (p : Piped) (t : Tid) (data : List Byte) (written : Nat) : Prop where
  flow : ∃ xs, Flow p xs
  place : p.chan.place t = .inside (.put data written (data.drop written)) .copy
  consumed : p.traffic.consumed = []
  puts : p.traffic.puts = []
  consumorP : p.chan.queue.consumorP = 0

variable {p p' : Piped} {t : Tid} {data : List Byte} {written : Nat} {size : BitVec 32}

/-- The next byte is written. -/
theorem Writing.copy (h : Writing p t data written) (hw : written < data.length) :
    ∃ p', p.Step (.step t) p' ∧ Writing p' t data (written + 1) ∧
      p'.chan.queue.size = p.chan.queue.size := by
  obtain ⟨xs, hf⟩ := h.flow
  have hs := hf.sound t
  rw [h.place] at hs
  cases hs with
  | put _ _ hc => exact absurd rfl hc
  | putCopy hn h0 hle hroom hsuf =>
    have hav : 0 < p.chan.queue.avaliable := by
      apply BitVec.lt_def.mpr
      rw [hf.carries.avaliable_eq]
      simp only [BitVec.ofNat_eq_ofNat, BitVec.toNat_zero]
      omega
    have hm : (Call.put data written (data.drop written)).copying p.chan.queue = true :=
      decide_eq_true ⟨hav, hw⟩
    have hcan : p.chan.CanStep t := by
      unfold Channel.CanStep
      rw [h.place]
      trivial
    have hadv : p.chan.advance t = some ({ p.chan with
        queue := ((Call.put data written (data.drop written)).copy p.chan.queue).2 }.goto t
          (.inside ((Call.put data written (data.drop written)).copy p.chan.queue).1 .copy)) := by
      unfold Channel.advance
      rw [h.place]
      exact if_pos hm
    have hnote : p.traffic.note p.chan.queue t (p.chan.place t) =
        { p.traffic with produced := p.traffic.produced ++ [(data.drop written).headD 0] } := by
      rw [h.place]
      exact if_pos hm
    refine ⟨⟨_, _⟩, ⟨hcan, hadv, rfl⟩, ⟨hf.advance hcan hadv, ?_, ?_, ?_, h.consumorP⟩, rfl⟩
    · change Function.update p.chan.place t _ t = _
      rw [Function.update_self]
      change Place.inside (.put data (written + 1) (data.drop written).tail) .copy = _
      rw [List.tail_drop]
    · change (p.traffic.note p.chan.queue t (p.chan.place t)).consumed = []
      rw [hnote]
      exact h.consumed
    · change (p.traffic.note p.chan.queue t (p.chan.place t)).puts = []
      rw [hnote]
      exact h.puts

/-- All of the data is written. -/
theorem Writing.all (n : Nat) (h : Writing p t data written) (hn : data.length = written + n) :
    ∃ es p', Run (Guarded Small Step) p es p' ∧ Writing p' t data data.length ∧
      p'.chan.queue.size = p.chan.queue.size := by
  induction n generalizing p written with
  | zero => exact ⟨[], p, .nil p, by rwa [hn], rfl⟩
  | succ n ih =>
    obtain ⟨p₁, hstep, h₁, hz₁⟩ := h.copy (by omega)
    obtain ⟨es, p₂, hrun, h₂, hz₂⟩ := ih h₁ (by omega)
    exact ⟨.step t :: es, p₂, .cons ⟨trivial, hstep⟩ hrun, h₂, hz₂.trans hz₁⟩

/-- A first put comes to its inner loop. -/
theorem Writing.begin (h0 : 0 < data.length) (hd : data.length + 1 < size.toNat)
    (hsmall : size.toNat < 2 ^ 31) :
    ∃ es p, Run (Guarded Small Step) (start (.init size)) es p ∧ Writing p 0 data 0 ∧
      p.chan.queue.size = size := by
  have hf := Flow.start (Nat.zero_lt_of_lt hd) hsmall
  have hfits : (Call.put data 0 data).fits (CircleQueue.init size) = true := by
    refine decide_eq_true (BitVec.lt_def.mpr ?_)
    have hav := hf.carries.avaliable_eq
    change (CircleQueue.init size).avaliable.toNat = size.toNat - 1 - 0 at hav
    rw [hav, BitVec.toNat_ofNat, Nat.mod_eq_of_lt (by omega)]
    omega
  let r : Traffic := ⟨[], [], [], [], [], []⟩
  let c₀ : Channel := (start (.init size)).chan
  let c₁ := c₀.goto 0 (.inside (.put data 0 []) .loop)
  let c₂ := c₁.goto 0 (.inside (.put data 0 []) .fetch)
  let c₃ := (c₂.setLock ⟨some 0, 0, 1⟩).goto 0 (.inside (.put data 0 []) .test)
  let c₄ := c₃.goto 0 (.inside (.put data 0 data) .copy)
  have s₁ : Step ⟨c₀, r⟩ (.putData 0 data) ⟨c₁, r⟩ := ⟨rfl, rfl⟩
  have s₂ : Step ⟨c₁, r⟩ (.step 0) ⟨c₂, r⟩ := by
    refine ⟨trivial, ?_, (if_pos h0).symm⟩
    have hu : (Call.put data 0 []).unfinished = true := decide_eq_true h0
    change some (c₁.goto 0 (if _ then _ else _)) = _
    rw [if_pos hu]
  have s₃ : Step ⟨c₂, r⟩ (.step 0) ⟨c₃, r⟩ := ⟨rfl, rfl, rfl⟩
  have s₄ : Step ⟨c₃, r⟩ (.step 0) ⟨c₄, r⟩ := by
    refine ⟨trivial, ?_, rfl⟩
    change some (c₃.goto 0 (.inside (.put data 0 data)
      (if (Call.put data 0 data).fits (CircleQueue.init size) then _ else _))) = _
    rw [if_pos hfits]
  obtain ⟨_, f₂⟩ := flow_advance (hf.putData rfl hd) s₂
  obtain ⟨_, f₃⟩ := flow_advance f₂ s₃
  obtain ⟨_, f₄⟩ := flow_advance f₃ s₄
  refine ⟨[.putData 0 data, .step 0, .step 0, .step 0], ⟨c₄, r⟩, .cons ⟨hd, s₁⟩
    (.cons ⟨trivial, s₂⟩ (.cons ⟨trivial, s₃⟩ (.single ⟨trivial, s₄⟩))),
    ⟨⟨_, f₄⟩, rfl, rfl, rfl, rfl⟩, rfl⟩

/-- A put that goes beyond the pages is overwritten before it is read. -/
theorem overwritten (hsmall : size.toNat < 2 ^ 31) (hd : data.length + 1 < size.toNat)
    (hlong : bufRoom size < data.length) (hzero : data[bufRoom size] = 0) :
    ∃ es p, Run (Guarded Small Step) (start (.init size)) es p ∧ ¬ StreamLaw p := by
  obtain ⟨es, p, hrun, hw, hz⟩ := Writing.begin (Nat.zero_lt_of_lt hlong) hd hsmall
  obtain ⟨es', p', hrun', hw', hz'⟩ := hw.all data.length (Nat.zero_add _).symm
  have hlast : Guarded Small Step p' (.disturb fun _ => 1) _ := ⟨trivial, rfl⟩
  refine ⟨_, _, (hrun.append hrun').append (.single hlast), fun hl => ?_⟩
  obtain ⟨xs, hxs, hc⟩ := hl.carried
  obtain ⟨ys, hf⟩ := hw'.flow
  have hl' : (p'.chan.place 0).locked = true := by
    rw [hw'.place]
    rfl
  have hprod : p'.traffic.produced = data := by
    rw [hf.produced, hf.half_eq hl', hw'.place, Traffic.allPuts, hw'.puts]
    exact List.take_length
  have hdata : xs = data := by
    rw [← hprod]
    exact ((congrArg (· ++ xs) hw'.consumed).symm.trans hxs.symm).trans rfl
  have hcell := hc.ring.cells (bufRoom size) 0 (by
    rw [hdata, List.getElem?_eq_getElem hlong, hzero])
  change (p'.chan.queue.disturb fun _ => 1).buf
    ((p'.chan.queue.consumorP.toNat + bufRoom size) % p'.chan.queue.size.toNat) = 0 at hcell
  rw [hw'.consumorP, hz', hz] at hcell
  change (if (0 + bufRoom size) % size.toNat < bufRoom p'.chan.queue.size then _ else (1 : Byte)) = 0
    at hcell
  rw [hz', hz, Nat.zero_add, Nat.mod_eq_of_lt (by omega), if_neg (Nat.lt_irrefl _)] at hcell
  cases hcell

/-- The queue of a pipe. -/
theorem overwritten_pipe : initIoqueue 1 4096 = some (.init 4096) ∧
    ∃ es p, Run (Guarded Small Step) (start (.init 4096)) es p ∧ ¬ StreamLaw p := by
  refine ⟨rfl, @overwritten (List.replicate 4049 0) 4096 (by decide) ?_ ?_ ?_⟩
  · rw [List.length_replicate]
    decide
  · rw [List.length_replicate]
    decide
  · exact List.getElem_replicate ..

end Piped

end Frog.Thread
