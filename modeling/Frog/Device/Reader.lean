import Frog.Lib.MaskQueue
import Frog.Lib.Runs
import Mathlib.Data.BitVec

/-!
# Reading from a device

`read_kbd` and `read_pcmouse`. A reader takes records from the queue of an interrupt handler until it
has what it asked for or finds the queue empty. The handler runs between any two of its steps.
-/

set_option autoImplicit false

namespace Frog.Device

abbrev Byte := BitVec 8

/-! ## The readers -/

/-- Where a thread is in its call, with the records it still asks for and those it has stored. -/
inductive Place (α : Type) where
  | outside
  | waiting (count : Nat)
  | copying (count index : Nat) (got : List α)

/-- The queue of a device and its readers. -/
structure Readers (α : Type) where
  queue : MaskQueue α
  place : Nat → Place α

inductive Label (α : Type) where
  | scan (b : Byte)
  | again (p : Nat)
  | wait (p count : Nat)
  | enter (p count : Nat)
  | wake (p : Nat)
  | take (p : Nat) (x : α)
  | ret (p : Nat) (stored : List α) (n : Nat)

section Steps
variable {α : Type}

def Readers.goto (s : Readers α) (p : Nat) (k : Place α) : Readers α :=
  { s with place := Function.update s.place p k }

/-- A call for `count` bytes of records of `step` bytes. A waiting reader goes on when the queue is not
empty or, where `anyway`, whenever it is woken. -/
inductive ReadStep (size step : Nat) (anyway : Bool) : Readers α → Label α → Readers α → Prop
  | again {s : Readers α} {p : Nat} : s.place p = .outside → s.queue.isEmpty = true →
    ReadStep size step anyway s (.again p) s
  | wait {s : Readers α} {p count : Nat} : s.place p = .outside → count % step = 0 →
    s.queue.isEmpty = true →
    ReadStep size step anyway s (.wait p count) (s.goto p (.waiting count))
  | enter {s : Readers α} {p count : Nat} : s.place p = .outside → count % step = 0 →
    s.queue.isEmpty = false →
    ReadStep size step anyway s (.enter p count) (s.goto p (.copying count (count / step) []))
  | wake {s : Readers α} {p count : Nat} : s.place p = .waiting count →
    (anyway = true ∨ s.queue.isEmpty = false) →
    ReadStep size step anyway s (.wake p) (s.goto p (.copying count (count / step) []))
  | take {s : Readers α} {p count index : Nat} {got : List α} :
    s.place p = .copying count (index + 1) got → s.queue.isEmpty = false →
    ReadStep size step anyway s (.take p (s.queue.get size step).1)
      (Readers.goto { s with queue := (s.queue.get size step).2 } p
        (.copying count index (got ++ [(s.queue.get size step).1])))
  | ret {s : Readers α} {p count index : Nat} {got : List α} :
    s.place p = .copying count index got → (index = 0 ∨ s.queue.isEmpty = true) →
    ReadStep size step anyway s (.ret p got (if count - index ≠ 0 then count - index else 0))
      (s.goto p .outside)

/-! ## The readers as they should be -/

/-- The records in the queue, what each reader has and how many it wants. -/
structure Feed (α : Type) where
  queued : List α
  got : Nat → List α
  wanted : Nat → Nat

/-- A record is dropped only when the queue is full. -/
def offer (cells : Nat) (x : Option α) (xs : List α) : List α :=
  match x with
  | some x => if xs.length + 1 < cells then xs ++ [x] else xs
  | none => xs

/-- Readers get the records in order until they have what they want or none is left, and return how
many bytes they have stored. -/
inductive FeedStep (step : Nat) : Feed α → Label α → Feed α → Prop
  | again {i : Feed α} {p : Nat} : i.queued = [] → FeedStep step i (.again p) i
  | wait {i : Feed α} {p count : Nat} : i.queued = [] →
    FeedStep step i (.wait p count) { i with wanted := Function.update i.wanted p (count / step) }
  | enter {i : Feed α} {p count : Nat} :
    FeedStep step i (.enter p count) { i with
      got := Function.update i.got p []
      wanted := Function.update i.wanted p (count / step) }
  | wake {i : Feed α} {p : Nat} :
    FeedStep step i (.wake p) { i with got := Function.update i.got p [] }
  | take {i : Feed α} {p : Nat} {x : α} {xs : List α} : i.queued = x :: xs →
    FeedStep step i (.take p x) ⟨xs, Function.update i.got p (i.got p ++ [x]), i.wanted⟩
  | ret {i : Feed α} {p : Nat} : (i.got p).length = i.wanted p ∨ i.queued = [] →
    FeedStep step i (.ret p (i.got p) (step * (i.got p).length)) i

/-- No reader ends before it has what it asked for. -/
def Label.Full (s : Readers α) : Label α → Prop
  | .ret p _ _ => ∀ count index got, s.place p = .copying count index got → index = 0
  | _ => True

/-- The queue holds what it should, and each reader has stored what it got. -/
structure Reads (cells step : Nat) (s : Readers α) (i : Feed α) : Prop where
  queue : s.queue.Holds cells step i.queued
  readers : ∀ p count index got, s.place p = .copying count index got →
    i.got p = got ∧ i.wanted p = count / step ∧ got.length + index = count / step ∧ count % step = 0
  waiting : ∀ p count, s.place p = .waiting count → i.wanted p = count / step ∧ count % step = 0

variable {cells step : Nat} {anyway : Bool} {s t : Readers α} {i : Feed α} {l : Label α}
  {p count : Nat}

theorem goto_place {k : Place α} {q : Nat} :
    (s.goto p k).place q = if q = p then k else s.place q := Function.update_apply ..

/-- The queue of a device that has just been set up. -/
theorem Reads.init {buf : Nat → α} (hs : 0 < step) (hc : 0 < cells) (hk : ∃ k, step * cells = 2 ^ k) :
    Reads cells step ⟨⟨0, 0, buf⟩, fun _ => .outside⟩ ⟨[], fun _ => [], fun _ => 0⟩ :=
  ⟨.init hs hc hk, fun _ _ _ _ h => (nomatch h), fun _ _ h => (nomatch h)⟩

/-- A thread is about to call. -/
theorem Reads.want (h : Reads cells step s i) (hp : s.place p = .outside) (n : Nat) :
    Reads cells step s { i with wanted := Function.update i.wanted p n } := by
  have hne : ∀ q k, s.place q = k → k ≠ .outside → Function.update i.wanted p n q = i.wanted q := by
    rintro q k hq hk
    refine Function.update_of_ne ?_ ..
    rintro rfl
    exact hk (hq.symm.trans hp)
  refine ⟨h.queue, fun q c k got hq => ?_, fun q c hq => ?_⟩
  · change _ ∧ Function.update i.wanted p n q = _ ∧ _
    rw [hne q _ hq nofun]
    exact h.readers q c k got hq
  · change Function.update i.wanted p n q = _ ∧ _
    rw [hne q _ hq nofun]
    exact h.waiting q c hq

/-- A reader begins to copy. -/
theorem Reads.enter (h : Reads cells step s i) (hw : i.wanted p = count / step)
    (hc : count % step = 0) :
    Reads cells step (s.goto p (.copying count (count / step) []))
      { i with got := Function.update i.got p [] } := by
  refine ⟨h.queue, fun q c n got hq => ?_, fun q c hq => ?_⟩
  · rw [goto_place] at hq
    change Function.update i.got p [] q = got ∧ _
    rw [Function.update_apply]
    by_cases hqp : q = p
    · rw [if_pos hqp] at hq ⊢
      obtain ⟨rfl, rfl, rfl⟩ := Place.copying.inj hq
      exact ⟨rfl, hqp ▸ hw, by simp, hc⟩
    · rw [if_neg hqp] at hq ⊢
      exact h.readers q c n got hq
  · rw [goto_place] at hq
    split at hq
    · cases hq
    · exact h.waiting q c hq

/-- A reader does not copy. -/
theorem Reads.away (h : Reads cells step s i) {k : Place α} (hk : ∀ c n got, k ≠ .copying c n got)
    (hw : ∀ c, k = .waiting c → i.wanted p = c / step ∧ c % step = 0) :
    Reads cells step (s.goto p k) i := by
  refine ⟨h.queue, fun q c n got hq => ?_, fun q c hq => ?_⟩
  · rw [goto_place] at hq
    split at hq
    · exact absurd hq (hk c n got)
    · exact h.readers q c n got hq
  · rw [goto_place] at hq
    split at hq
    · exact ‹q = p› ▸ hw c hq
    · exact h.waiting q c hq

/-- What a call returns: the bytes it stored, if records are bytes or none is missing. -/
theorem stored_bytes {index : Nat} {got : List α} (hlen : got.length + index = count / step)
    (hc : count % step = 0) (h : step = 1 ∨ index = 0) :
    (if count - index ≠ 0 then count - index else 0) = step * got.length := by
  have hcount : count = step * (count / step) := (Nat.mul_div_cancel' (Nat.dvd_of_mod_eq_zero hc)).symm
  have hval : (if count - index ≠ 0 then count - index else 0) = count - index := by
    split <;> omega
  rw [hval]
  rcases h with rfl | rfl
  · omega
  · rw [Nat.add_zero] at hlen
    rw [hlen, ← hcount, Nat.sub_zero]

/-- A step of a reader is one of the feed. -/
theorem ReadStep.feed {size : Nat} (h : ReadStep size step anyway s l t)
    (hr : Reads cells step s i) (hsize : step * cells = size) (hfull : step = 1 ∨ l.Full s) :
    ∃ j, FeedStep step i l j ∧ Reads cells step t j := by
  subst hsize
  cases h with
  | again hp he => exact ⟨i, .again (hr.queue.isEmpty_iff.mp he), hr⟩
  | wait hp hc he =>
    refine ⟨_, .wait (hr.queue.isEmpty_iff.mp he),
      (hr.want hp _).away (fun _ _ _ => nofun) fun c h => ?_⟩
    obtain rfl := Place.waiting.inj h
    exact ⟨Function.update_self .., hc⟩
  | enter hp hc he => exact ⟨_, .enter, (hr.want hp _).enter (Function.update_self ..) hc⟩
  | wake hp he =>
    obtain ⟨hw, hc⟩ := hr.waiting _ _ hp
    exact ⟨_, .wake, hr.enter hw hc⟩
  | @take p count index got hp he =>
    cases hx : i.queued with
    | nil =>
      rw [hr.queue.isEmpty_iff.mpr hx] at he
      cases he
    | cons x xs =>
      have hq := hr.queue
      rw [hx] at hq
      obtain ⟨hx', hrest⟩ := hq.get
      obtain ⟨hgot, hw, hlen, hc⟩ := hr.readers p _ _ _ hp
      rw [hx']
      refine ⟨_, .take hx, hrest, fun q n k g hq => ?_, fun q n hq => ?_⟩
      · rw [goto_place] at hq
        change Function.update i.got p (i.got p ++ [x]) q = g ∧ _
        rw [Function.update_apply]
        by_cases hqp : q = p
        · rw [if_pos hqp] at hq ⊢
          obtain ⟨rfl, rfl, rfl⟩ := Place.copying.inj hq
          rw [hgot, List.length_append, List.length_singleton]
          exact ⟨rfl, hqp ▸ hw, by omega, hc⟩
        · rw [if_neg hqp] at hq ⊢
          exact hr.readers q n k g hq
      · rw [goto_place] at hq
        split at hq
        · cases hq
        · exact hr.waiting q n hq
  | @ret p count index got hp hend =>
    obtain ⟨rfl, hw, hlen, hc⟩ := hr.readers p _ _ _ hp
    have hall : (i.got p).length = i.wanted p ∨ i.queued = [] := by
      refine hend.imp (fun h0 => ?_) hr.queue.isEmpty_iff.mp
      rw [hw, ← hlen, h0, Nat.add_zero]
    have hstep : step = 1 ∨ index = 0 := hfull.imp_right fun hf => hf _ _ _ hp
    rw [stored_bytes hlen hc hstep]
    exact ⟨i, .ret hall, hr.away (fun _ _ _ => nofun) fun _ => nofun⟩

end Steps

end Frog.Device
