import Frog.Lib.Runs
import Frog.PackageFs.Transfer

/-!
# Packages through one queue

Any number of writers and readers on the queue of a server or of a client. A call waits in the pass
of a transfer that it is at until the pass moves something; a pass has the lock of the queue and is
one step. A package goes in with one transfer and comes out with two.
-/

namespace Frog.PackageFs

set_option autoImplicit false
open Frog.Thread (CircleQueue Tid)

/-- Where a thread stands in `write_client`, `write_server`, `read_server` or `read_client`. -/
inductive Place where
  | outside
  /-- In the put of `send_to_server` or `send_to_client`. -/
  | put (pack : Package)
  /-- In the first get of `receive_packet`, for a buffer of `count` bytes. -/
  | size (count : BitVec 32)
  /-- In the second one. -/
  | body (count dataSize : BitVec 32)
  deriving DecidableEq

/-- The packages in the order in which they were put into the queue, and what the reads returned in
the order of their last transfers. -/
structure Line where
  queue : CircleQueue
  place : Tid → Place
  written : List (Tid × Package)
  received : List (Tid × Option Package)

namespace Line

def start (queue : CircleQueue) : Line := ⟨queue, fun _ => .outside, [], []⟩

def goto (s : Line) (t : Tid) (p : Place) : Line := { s with place := Function.update s.place t p }

/-- The next pass of a thread inside a call. -/
def advance (s : Line) (t : Tid) : Line :=
  match s.place t with
  | .outside => s
  | .put pack =>
    let r := s.queue.putPass pack.bytes pack.bytes.length
    if r.1 = 0 then
      { s with queue := r.2, written := s.written ++ [(t, pack)] }.goto t .outside
    else s
  | .size count =>
    let r := s.queue.getPass 4 []
    if r.1.length = 4 then { s with queue := r.2 }.goto t (.body count (word r.1)) else s
  | .body count dataSize =>
    let n := (dataSize + 8 - 4).toNat
    let r := s.queue.getPass n []
    if r.1.length = n then
      let packet : Package := ⟨dataSize, word r.1, r.1.drop 4⟩
      { s with
        queue := r.2
        received := s.received ++ [(t, if count < dataSize + 8 then none else some packet)] }.goto t
          .outside
    else s

inductive Event where
  | write (t : Tid) (source : Addr) (size : BitVec 32) (data : Nat → Byte)
  | read (t : Tid) (count : BitVec 32)
  | step (t : Tid)

/-- `write_client` and `write_server` refuse what is too big. -/
def Step (s : Line) (e : Event) (s' : Line) : Prop :=
  match e with
  | .write t source size data => s.place t = .outside ∧ size ≤ maxPacketSize ∧
    s' = s.goto t (.put (pack size source data))
  | .read t count => s.place t = .outside ∧ s' = s.goto t (.size count)
  | .step t => s.place t ≠ .outside ∧ s' = s.advance t

/-- A reader begins when no other one is between its transfers, and its buffer has room. -/
def Alone (s : Line) : Event → Prop
  | .step t =>
    match s.place t with
    | .size _ => ∀ u count dataSize, s.place u ≠ .body count dataSize
    | .body count dataSize => dataSize + 8 ≤ count
    | _ => True
  | _ => True

/-- The packages that were received are the first ones that were written, each by one read and as it
was written; the others are still in the queue, the first of them perhaps without its size. -/
def Framed (s : Line) : Prop :=
  ∃ taken left, s.written.map Prod.snd = taken ++ left ∧
    s.received.map Prod.snd = taken.map some ∧
    ((∀ u count dataSize, s.place u ≠ .body count dataSize) →
      s.queue.Carries (left.flatMap Package.bytes)) ∧
    ∀ u count dataSize, s.place u = .body count dataSize →
      ∃ p rest, left = p :: rest ∧ dataSize = p.size ∧
        s.queue.Carries (le32 p.source ++ p.data ++ rest.flatMap Package.bytes)

/-! ## The invariant -/

/-- A package as `pack` makes it. -/
def Proper (p : Package) : Prop := p.size.toNat = p.data.length ∧ p.data.length ≤ 1024

/-- The thread between its two transfers. -/
def Inside (s : Line) (u : Tid) : Prop := ∃ count dataSize, s.place u = .body count dataSize

structure Orderly (s : Line) : Prop where
  framed : Framed s
  written : ∀ e ∈ s.written, Proper e.2
  putting : ∀ u p, s.place u = .put p → Proper p
  one : ∀ u v, Inside s u → Inside s v → u = v

section Lemmas
variable {s s' : Line} {t u : Tid} {p : Package}

theorem proper_pack {size : BitVec 32} (hs : size ≤ maxPacketSize) (source : Addr)
    (data : Nat → Byte) : Proper (pack size source data) := by
  refine ⟨pack_size size source data, ?_⟩
  rw [← pack_size size source data]
  exact BitVec.le_def.mp hs

theorem Proper.length_lt (h : Proper p) : p.bytes.length < 2 ^ 32 := by
  have := h.2
  rw [Package.length_bytes]
  omega

theorem goto_other (h : u ≠ t) (P : Place) : (s.goto t P).place u = s.place u :=
  Function.update_of_ne h ..

theorem goto_self (P : Place) : (s.goto t P).place t = P := Function.update_self ..

theorem advance_other (h : u ≠ t) : (s.advance t).place u = s.place u := by
  unfold advance
  cases s.place t with
  | outside => rfl
  | put p =>
    simp only
    split
    · exact goto_other h _
    · rfl
  | size count =>
    simp only
    split
    · exact goto_other h _
    · rfl
  | body count dataSize =>
    simp only
    split
    · exact goto_other h _
    · rfl

/-- A step between places outside of the reads changes nobody's place inside. -/
theorem body_goto {P : Place} (ht : ¬ Inside s t) (hP : ∀ count dataSize, P ≠ .body count dataSize)
    {count dataSize : BitVec 32} :
    (s.goto t P).place u = .body count dataSize ↔ s.place u = .body count dataSize := by
  by_cases hut : u = t
  · subst hut
    rw [goto_self]
    exact ⟨fun h => absurd h (hP _ _), fun h => absurd ⟨_, _, h⟩ ht⟩
  · rw [goto_other hut]

/-- A thread that is not between its transfers goes on and none of the packages moves. -/
theorem Orderly.goto (h : Orderly s) {P : Place} (ht : ¬ Inside s t)
    (hP : ∀ count dataSize, P ≠ .body count dataSize) (hput : ∀ p, P = .put p → Proper p) :
    Orderly (s.goto t P) := by
  obtain ⟨taken, left, hw, hr, hfree, hin⟩ := h.framed
  refine ⟨⟨taken, left, hw, hr, fun hn => ?_, fun u count dataSize hu => ?_⟩, h.written,
    fun u p hu => ?_, fun u v hu hv => ?_⟩
  · exact hfree fun u count dataSize hu => hn u count dataSize ((body_goto ht hP).mpr hu)
  · exact hin u count dataSize ((body_goto ht hP).mp hu)
  · by_cases hut : u = t
    · subst hut
      rw [goto_self] at hu
      exact hput p hu
    · rw [goto_other hut] at hu
      exact h.putting u p hu
  · obtain ⟨_, _, hu⟩ := hu
    obtain ⟨_, _, hv⟩ := hv
    exact h.one u v ⟨_, _, (body_goto ht hP).mp hu⟩ ⟨_, _, (body_goto ht hP).mp hv⟩

/-- What the queue carries. -/
theorem Orderly.carries (h : Orderly s) : ∃ xs, s.queue.Carries xs := by
  obtain ⟨taken, left, -, -, hfree, hin⟩ := h.framed
  by_cases hi : ∃ u, Inside s u
  · obtain ⟨u, _, _, hu⟩ := hi
    obtain ⟨_, _, -, -, hc⟩ := hin u _ _ hu
    exact ⟨_, hc⟩
  · exact ⟨_, hfree fun u _ _ hu => hi ⟨u, _, _, hu⟩⟩

/-- A package is put into the queue. -/
theorem Orderly.put (h : Orderly s) (hp : s.place t = .put p) : Orderly (s.advance t) := by
  have hpr := h.putting t p hp
  have ht : ¬ Inside s t := by
    rintro ⟨_, _, hi⟩
    rw [hp] at hi
    cases hi
  unfold advance
  rw [hp]
  by_cases h0 : (s.queue.putPass p.bytes p.bytes.length).1 = 0
  · simp only [if_pos h0]
    have hadd : ∀ xs, s.queue.Carries xs →
        (s.queue.putPass p.bytes p.bytes.length).2.Carries (xs ++ p.bytes) :=
      fun xs hx => (putPass_done hx hpr.length_lt h0).1
    obtain ⟨taken, left, hw, hr, hfree, hin⟩ := h.framed
    have hs : Orderly { s with
        queue := (s.queue.putPass p.bytes p.bytes.length).2
        written := s.written ++ [(t, p)] } := by
      refine ⟨⟨taken, left ++ [p], ?_, hr, fun hn => ?_, fun u count dataSize hu => ?_⟩,
        fun e he => ?_, h.putting, h.one⟩
      · rw [List.map_append, hw, List.append_assoc]
        rfl
      · rw [List.flatMap_append, List.flatMap_singleton]
        exact hadd _ (hfree hn)
      · obtain ⟨q, rest, rfl, hs, hc⟩ := hin u count dataSize hu
        refine ⟨q, rest ++ [p], rfl, hs, ?_⟩
        rw [List.flatMap_append, List.flatMap_singleton, ← List.append_assoc]
        exact hadd _ hc
      · rcases List.mem_append.mp he with he | he
        · exact h.written e he
        · cases List.mem_singleton.mp he
          exact hpr
    exact hs.goto ht (fun _ _ hc => by cases hc) (fun _ hc => by cases hc)
  · simp only [if_neg h0]
    exact h

/-- A reader takes the size of the first package. -/
theorem Orderly.size (h : Orderly s) {count : BitVec 32} (hp : s.place t = .size count)
    (hok : ∀ u count dataSize, s.place u ≠ .body count dataSize) : Orderly (s.advance t) := by
  obtain ⟨taken, left, hw, hr, hfree, -⟩ := h.framed
  have hc := hfree hok
  unfold advance
  rw [hp]
  cases left with
  | nil =>
    have hshort := getPass_short (n := 4) hc (by decide) (by decide)
    simp only [hshort]
    exact h
  | cons p rest =>
    rw [List.flatMap_cons, Package.bytes, List.append_assoc, List.append_assoc] at hc
    obtain ⟨h1, h2, -⟩ := getPass_front hc
    rw [length_le32] at h1 h2
    simp only [h1, length_le32, if_true, word_le32]
    have hself : ∀ u count' dataSize,
        (({ s with queue := (s.queue.getPass 4 []).2 } : Line).goto t (.body count p.size)).place u =
          .body count' dataSize → u = t ∧ dataSize = p.size := by
      intro u count' dataSize hu
      by_cases hut : u = t
      · subst hut
        rw [goto_self] at hu
        cases hu
        exact ⟨rfl, rfl⟩
      · rw [goto_other hut] at hu
        exact absurd hu (hok _ _ _)
    refine ⟨⟨taken, p :: rest, hw, hr, fun hn => ?_, fun u count' dataSize hu => ?_⟩, h.written,
      fun u q hu => ?_, fun u v hu hv => ?_⟩
    · exact absurd (goto_self _) (hn t count p.size)
    · refine ⟨p, rest, rfl, (hself u count' dataSize hu).2, ?_⟩
      rw [List.append_assoc]
      exact h2
    · by_cases hut : u = t
      · subst hut
        rw [goto_self] at hu
        cases hu
      · rw [goto_other hut] at hu
        exact h.putting u q hu
    · obtain ⟨_, _, hu⟩ := hu
      obtain ⟨_, _, hv⟩ := hv
      rw [(hself u _ _ hu).1, (hself v _ _ hv).1]

/-- A reader takes the rest of the package. -/
theorem Orderly.body (h : Orderly s) {count dataSize : BitVec 32}
    (hp : s.place t = .body count dataSize) (hok : dataSize + 8 ≤ count) :
    Orderly (s.advance t) := by
  obtain ⟨taken, left, hw, hr, -, hin⟩ := h.framed
  obtain ⟨p, rest, rfl, rfl, hc⟩ := hin t count dataSize hp
  have hpr : Proper p := by
    have hm : p ∈ s.written.map Prod.snd := by
      rw [hw]
      exact List.mem_append_right _ (List.mem_cons_self ..)
    obtain ⟨e, he, rfl⟩ := List.mem_map.mp hm
    exact h.written e he
  have hlen : (p.size + 8 - 4).toNat = (le32 p.source ++ p.data).length := by
    have := hpr.2
    rw [List.length_append, length_le32, BitVec.toNat_sub, BitVec.toNat_add, hpr.1]
    change (2 ^ 32 - 4 + (p.data.length + 8) % 2 ^ 32) % 2 ^ 32 = 4 + p.data.length
    omega
  obtain ⟨h1, h2, -⟩ := getPass_front hc
  have hfits : ¬ count < p.size + 8 := BitVec.not_lt.mpr hok
  have hnone : ∀ (s₁ : Line) (hs₁ : s₁.place = s.place) (u : Tid) (count' dataSize : BitVec 32),
      (s₁.goto t .outside).place u ≠ .body count' dataSize := by
    intro s₁ hs₁ u count' dataSize hu
    by_cases hut : u = t
    · subst hut
      rw [goto_self] at hu
      cases hu
    · rw [goto_other hut, hs₁] at hu
      exact hut (h.one u t ⟨_, _, hu⟩ ⟨_, _, hp⟩)
  unfold advance
  rw [hp]
  simp only [hlen, h1, if_true, if_neg hfits, word_le32_append, List.drop_left' (length_le32 _)]
  refine ⟨⟨taken ++ [p], rest, ?_, ?_, fun _ => h2, fun u _ _ hu => ?_⟩, h.written, fun u q hu => ?_,
    fun u v hu hv => ?_⟩
  · rw [List.append_assoc]
    exact hw
  · change List.map Prod.snd (s.received ++ [(t, some p)]) = _
    rw [List.map_append, List.map_append, hr]
    rfl
  · exact absurd hu (hnone _ rfl _ _ _)
  · by_cases hut : u = t
    · subst hut
      rw [goto_self] at hu
      cases hu
    · rw [goto_other hut] at hu
      exact h.putting u q hu
  · obtain ⟨_, _, hu⟩ := hu
    exact absurd hu (hnone _ rfl _ _ _)

theorem Orderly.step {e : Event} (h : Orderly s) (hok : s.Alone e) (hs : s.Step e s') :
    Orderly s' := by
  cases e with
  | write t source size data =>
    obtain ⟨hp, hsize, rfl⟩ := hs
    refine h.goto ?_ (fun _ _ hc => by cases hc) fun p hc => ?_
    · rintro ⟨_, _, hi⟩
      rw [hp] at hi
      cases hi
    · cases hc
      exact proper_pack hsize source data
  | read t count =>
    obtain ⟨hp, rfl⟩ := hs
    refine h.goto ?_ (fun _ _ hc => by cases hc) (fun _ hc => by cases hc)
    rintro ⟨_, _, hi⟩
    rw [hp] at hi
    cases hi
  | step t =>
    obtain ⟨hne, rfl⟩ := hs
    cases hp : s.place t with
    | outside => exact absurd hp hne
    | put p => exact h.put hp
    | size count =>
      simp only [Alone, hp] at hok
      exact h.size hp hok
    | body count dataSize =>
      simp only [Alone, hp] at hok
      exact h.body hp hok

theorem Orderly.start {q : CircleQueue} (hq : q.Carries []) : Orderly (.start q) := by
  refine ⟨⟨[], [], rfl, rfl, fun _ => hq, fun u _ _ hu => ?_⟩, fun e he => ?_, fun u p hu => ?_,
    fun u v hu => ?_⟩
  · cases hu
  · cases he
  · cases hu
  · obtain ⟨_, _, hu⟩ := hu
    cases hu

end Lemmas

/-- As long as the transfers of the readers do not mix and their buffers have room. -/
theorem framed_alone {es : List Event} {s : Line}
    (h : Run (Guarded Alone Step) (start (.init 4000)) es s) : Framed s :=
  (h.guarded_invariant (I := Orderly) (fun _ _ _ hi hok hs => hi.step hok hs)
    (.start (.init (by decide) (by decide)))).framed

/-- Two writers and two readers. The second reader calls while the first one reads, and the second
package is written between the two transfers of the first one. -/
def passing : List Event := [.write 0 8 4 fun i => BitVec.ofNat 8 i, .step 0, .read 1 1024, .read 2 1024,
  .step 1, .write 3 9 2 fun _ => 7, .step 3, .step 1, .step 2, .step 2]

def waiting : Line :=
  let s := (start (.init 4000)).goto 0 (.put (pack 4 8 fun i => BitVec.ofNat 8 i))
  ((s.advance 0).goto 1 (.size 1024)).goto 2 (.size 1024)

def halfway : Line :=
  (((waiting.advance 1).goto 3 (.put (pack 2 9 fun _ => 7))).advance 3).advance 1

def passed : Line := (halfway.advance 2).advance 2

theorem not_inside_waiting (u : Tid) (count dataSize : BitVec 32) :
    waiting.place u ≠ .body count dataSize := by
  have hplace : waiting.place u = if u = 2 ∨ u = 1 then .size 1024 else .outside := by
    by_cases h2 : u = 2
    · subst h2
      decide
    · by_cases h1 : u = 1
      · subst h1
        decide
      · by_cases h0 : u = 0
        · subst h0
          decide
        · rw [if_neg (not_or.mpr ⟨h2, h1⟩), waiting, goto_other h2, goto_other h1, advance_other h0,
            goto_other h0]
          rfl
  rw [hplace]
  split <;> nofun

theorem not_inside_halfway (u : Tid) (count dataSize : BitVec 32) :
    halfway.place u ≠ .body count dataSize := by
  by_cases h1 : u = 1
  · subst h1
    have hout : halfway.place 1 = .outside := by decide
    rw [hout]
    nofun
  · by_cases h3 : u = 3
    · subst h3
      have hout : halfway.place 3 = .outside := by decide
      rw [hout]
      nofun
    · rw [halfway, advance_other h1, advance_other h3, goto_other h3, advance_other h1]
      exact not_inside_waiting u count dataSize

theorem framed_alone_passed : Framed passed ∧
    passed.written = [(0, ⟨4, 8, [0, 1, 2, 3]⟩), (3, ⟨2, 9, [7, 7]⟩)] ∧
    passed.received = [(1, some ⟨4, 8, [0, 1, 2, 3]⟩), (2, some ⟨2, 9, [7, 7]⟩)] := by
  have hroom : (4 : BitVec 32) + 8 ≤ 1024 ∧ (2 : BitVec 32) + 8 ≤ 1024 := by decide
  have hrun : Run (Guarded Alone Step) (start (.init 4000)) passing passed := by
    refine .cons ⟨trivial, rfl, by decide, rfl⟩ (.cons ⟨trivial, ?_, rfl⟩ (.cons ⟨trivial, ?_, rfl⟩
      (.cons ⟨trivial, ?_, rfl⟩ (.cons ⟨not_inside_waiting, ?_, rfl⟩ (.cons ⟨trivial, ?_, ?_, rfl⟩
      (.cons ⟨trivial, ?_, rfl⟩ (.cons ⟨hroom.1, ?_, rfl⟩ (.cons ⟨not_inside_halfway, ?_, rfl⟩
      (.single ⟨hroom.2, ?_, rfl⟩)))))))))
    all_goals decide
  exact ⟨framed_alone hrun, by decide, by decide⟩

/-- Of two readers one takes the size and the other one the next word as its size. -/
def torn : Line :=
  let s := (start (.init 4000)).goto 0 (.put (pack 4 0 fun i => BitVec.ofNat 8 i))
  let s := ((s.advance 0).goto 1 (.size 1024)).goto 2 (.size 1024)
  ((s.advance 1).advance 2).advance 2

/-- A reader of a short buffer drops the package. -/
def dropped : Line :=
  let s := (start (.init 4000)).goto 0 (.put (pack 4 0 fun i => BitVec.ofNat 8 i))
  (((s.advance 0).goto 1 (.size 11)).advance 1).advance 1

theorem not_framed : (∃ es, Run Step (start (.init 4000)) es torn) ∧ ¬ Framed torn ∧
    (∃ es, Run Step (start (.init 4000)) es dropped) ∧ ¬ Framed dropped := by
  refine ⟨⟨[.write 0 0 4 fun i => BitVec.ofNat 8 i, .step 0, .read 1 1024, .read 2 1024, .step 1,
    .step 2, .step 2], ?_⟩, ?_, ⟨[.write 0 0 4 fun i => BitVec.ofNat 8 i, .step 0, .read 1 11,
    .step 1, .step 1], ?_⟩, ?_⟩
  · refine .cons ⟨rfl, by decide, rfl⟩ (.cons ⟨?_, rfl⟩ (.cons ⟨?_, rfl⟩ (.cons ⟨?_, rfl⟩
      (.cons ⟨?_, rfl⟩ (.cons ⟨?_, rfl⟩ (.single ⟨?_, rfl⟩))))))
    all_goals decide
  · rintro ⟨taken, left, hw, hr, -⟩
    have hrec : torn.received.map Prod.snd = [some ⟨0, 50462976, []⟩] := by decide
    have hwr : torn.written.map Prod.snd = [⟨4, 0, [0, 1, 2, 3]⟩] := by decide
    rw [hrec] at hr
    rw [hwr] at hw
    cases taken with
    | nil => cases hr
    | cons p taken =>
      have hp := (List.cons.inj hr).1
      rw [← (List.cons.inj hw).1] at hp
      exact absurd hp (by decide)
  · refine .cons ⟨rfl, by decide, rfl⟩ (.cons ⟨?_, rfl⟩ (.cons ⟨?_, rfl⟩ (.cons ⟨?_, rfl⟩
      (.single ⟨?_, rfl⟩))))
    all_goals decide
  · rintro ⟨taken, left, hw, hr, -⟩
    have hrec : dropped.received.map Prod.snd = [none] := by decide
    rw [hrec] at hr
    cases taken with
    | nil => cases hr
    | cons p taken => cases hr

end Line

end Frog.PackageFs
