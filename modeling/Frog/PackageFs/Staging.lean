import Frog.Lib.Watch
import Frog.PackageFs.Transfer
import Mathlib.Data.Finset.Insert
import Mathlib.Data.Finset.Card

/-!
# The heap blocks of packages

The reads and writes of `packagefs.c` with notes on the heap: a package that is received or sent is
staged in a block of its own. Memory can be had.
-/

namespace Frog.PackageFs

set_option autoImplicit false
open Prog
open Frog.Thread (CircleQueue)

/-! ## The heap -/

/-- The blocks that are in use; every other one below `next` has been freed. -/
structure Heap where
  next : Nat
  live : Finset Nat
  fresh : ∀ b ∈ live, b < next
  deriving DecidableEq

namespace Heap

def empty : Heap := ⟨0, ∅, fun _ hb => absurd hb (Finset.notMem_empty _)⟩

def malloc (k : Heap) : Heap where
  next := k.next + 1
  live := insert k.next k.live
  fresh := by
    intro b hb
    rcases Finset.mem_insert.mp hb with rfl | hb
    · exact Nat.lt_succ_self _
    · exact Nat.lt_succ_of_lt (k.fresh b hb)

def free (b : Nat) (k : Heap) : Heap where
  next := k.next
  live := k.live.erase b
  fresh := fun c hc => k.fresh c (Finset.mem_of_mem_erase hc)

variable {k : Heap}

theorem next_notMem : k.next ∉ k.live := fun h => Nat.lt_irrefl _ (k.fresh _ h)

@[simp] theorem card_malloc : k.malloc.live.card = k.live.card + 1 :=
  Finset.card_insert_of_notMem next_notMem

@[simp] theorem free_malloc : (k.malloc.free k.next).live = k.live :=
  Finset.erase_insert next_notMem

theorem malloc_ne : k.malloc.live ≠ k.live := by
  intro h
  have hc := congrArg Finset.card h
  rw [card_malloc] at hc
  omega

theorem card_iterate (n : Nat) : (malloc^[n] k).live.card = k.live.card + n := by
  induction n with
  | zero => rfl
  | succ n ih =>
    rw [Function.iterate_succ_apply', card_malloc, ih]
    omega

end Heap

/-! ## The calls -/

abbrev K (α : Type) : Type := Watched Stop State Heap α

/-- A thread that has to wait tries again after each step of the others. -/
def retry {α : Type} : List (State → State) → M α → M α
  | [], m => m
  | other :: others, m => fun s =>
    match m s with
    | .error .wait => retry others m (other s)
    | r => r

/-- `head->target`. -/
def target (buf : Nat → Byte) : Addr := word ((List.range 4).map buf)

namespace K

def sysMalloc : K Nat := fun s => .ok (s.2.next, (s.1, s.2.malloc))

def sysFree (b : Nat) : K Unit := note (Heap.free b)

/-- The package is returned with its block. -/
def receivePacket (f : File) : K (Nat × Package) := do
  let size ← watch (ioqueueGetData f 4)
  let tmp ← sysMalloc
  let rest ← watch (ioqueueGetData f (word size + 8 - 4))
  pure (tmp, ⟨word size, word rest, rest.drop 4⟩)

def readServer (p : Addr) (count : BitVec 32) : K (BitVec 32 × List Byte) := do
  let (tmp, packet) ← receivePacket (.server p)
  if count < packet.size + 8 then pure (-1, [])
  else do
    sysFree tmp
    pure (packet.size + 8, packet.bytes)

def readClient (c : Addr) (count : BitVec 32) : K (BitVec 32 × List Byte) := do
  let (tmp, packet) ← receivePacket (.client c)
  if count < packet.size + 8 then pure (-1, [])
  else do
    sysFree tmp
    pure (packet.size, packet.data)

def read (f : File) (count : BitVec 32) : K (BitVec 32 × List Byte) :=
  match f with
  | .server p => readServer p count
  | .client c => readClient c count

section Writes
variable (others : File → List (State → State))

def ioqueuePutData (f : File) (data : List Byte) : K (BitVec 32) :=
  watch (retry (others f) (PackageFs.ioqueuePutData f data))

def sendToServer (serv c : Addr) (size : BitVec 32) (data : Nat → Byte) : K (BitVec 32) := do
  let _ ← sysMalloc
  ioqueuePutData others (.server serv) (pack size c data).bytes

def sendToClient (c : Addr) (size : BitVec 32) (data : Nat → Byte) : K (BitVec 32) := do
  let _ ← sysMalloc
  ioqueuePutData others (.client c) (pack size 0 data).bytes

def broadcast (size : BitVec 32) (data : Nat → Byte) : List Addr → K Unit
  | [] => pure ()
  | c :: cs => do
    let _ ← sendToClient others c size data
    broadcast size data cs

def writeServer (p : Addr) (buf : Nat → Byte) (count : BitVec 32) : K (BitVec 32) :=
  if maxPacketSize < count - 4 then pure (-1)
  else do
    let data := fun i => buf (4 + i)
    let s ← watch get
    if target buf = 0 then
      broadcast others (count - 4) data (s.clients p)
      pure count
    else if s.server (target buf) ≠ p then pure (-1)
    else do
      let res ← sendToClient others (target buf) (count - 4) data
      pure (res + 4)

def writeClient (c : Addr) (buf : Nat → Byte) (count : BitVec 32) : K (BitVec 32) :=
  if maxPacketSize < count then pure (-22)
  else do
    let s ← watch get
    let _ ← sendToServer others (s.server c) c count buf
    pure count

def write (f : File) (buf : Nat → Byte) (count : BitVec 32) : K (BitVec 32) :=
  match f with
  | .server p => writeServer others p buf count
  | .client c => writeClient others c buf count

end Writes

/-! ## Without the notes -/

theorem sysMalloc_bind {α : Type} {w : Nat → K α} {m : M α} (h : ∀ b, Watches (w b) m) :
    Watches (sysMalloc >>= w) m :=
  fun s k => h k.next s k.malloc

theorem receivePacket_ok {f : File} {s t : State} {p : Package}
    (h : PackageFs.receivePacket f s = .ok (p, t)) (k : Heap) :
    receivePacket f (s, k) = .ok ((k.next, p), (t, k.malloc)) := by
  obtain ⟨size, s₁, h₁, h⟩ := bind_eq_ok.mp h
  obtain ⟨rest, s₂, h₂, h⟩ := bind_eq_ok.mp h
  cases h
  simp only [receivePacket, bind_apply, watch, h₁, sysMalloc, h₂]
  rfl

theorem receivePacket_error {f : File} {s : State} {e : Stop}
    (h : PackageFs.receivePacket f s = .error e) (k : Heap) :
    ∃ k', receivePacket f (s, k) = .error (e, k') := by
  unfold PackageFs.receivePacket at h
  cases h₁ : ioqueueGetData f 4 s with
  | error e₁ =>
    rw [bind_error h₁] at h
    cases h
    exact ⟨k, by simp only [receivePacket, bind_apply, watch, h₁]⟩
  | ok r =>
    rw [bind_ok h₁] at h
    cases h₂ : ioqueueGetData f (word r.1 + 8 - 4) r.2 with
    | error e₂ =>
      rw [bind_error h₂] at h
      cases h
      exact ⟨k.malloc, by simp only [receivePacket, bind_apply, watch, h₁, sysMalloc, h₂]⟩
    | ok r₂ =>
      rw [bind_ok h₂] at h
      cases h

/-- What follows a package that is received. -/
theorem receivePacket_bind {α : Type} {f : File} {w : Nat × Package → K α} {m : Package → M α}
    (h : ∀ b p, Watches (w (b, p)) (m p)) :
    Watches (receivePacket f >>= w) (PackageFs.receivePacket f >>= m) := by
  intro s k
  cases hr : PackageFs.receivePacket f s with
  | ok r =>
    rw [bind_ok hr, bind_ok (receivePacket_ok hr k)]
    exact h k.next r.1 r.2 k.malloc
  | error e =>
    obtain ⟨k', hk⟩ := receivePacket_error hr k
    rw [bind_error hr, bind_error hk]
    exact ⟨k', rfl⟩

theorem read_watches (f : File) (count : BitVec 32) :
    Watches (read f count) (PackageFs.read f count) := by
  cases f with
  | server p =>
    exact receivePacket_bind fun b p => .ite (fun _ => .pure _) fun _ => .note_bind (.pure _)
  | client c =>
    exact receivePacket_bind fun b p => .ite (fun _ => .pure _) fun _ => .note_bind (.pure _)

section Writes
variable {α : Type} (size count : BitVec 32) (data buf : Nat → Byte)

/-- Nobody acts while the call is under way. -/
abbrev alone : File → List (State → State) := fun _ => []

theorem sendToServer_watches (serv c : Addr) :
    Watches (sendToServer alone serv c size data) (PackageFs.sendToServer serv c size data) :=
  sysMalloc_bind fun _ => .watch _

theorem sendToClient_watches (c : Addr) :
    Watches (sendToClient alone c size data) (PackageFs.sendToClient c size data) :=
  sysMalloc_bind fun _ => .watch _

theorem broadcast_watches (cs : List Addr) :
    Watches (broadcast alone size data cs) (PackageFs.broadcast size data cs) := by
  induction cs with
  | nil => exact .pure _
  | cons c cs ih => exact .bind (sendToClient_watches size data c) fun _ => ih

theorem write_watches (f : File) :
    Watches (write alone f buf count) (PackageFs.write f buf count) := by
  cases f with
  | server p =>
    refine .ite (fun _ => .pure _) fun _ => .bind (.watch _) fun s => ?_
    refine .ite (fun _ => .bind (broadcast_watches _ _ _) fun _ => .pure _) fun _ => ?_
    exact .ite (fun _ => .pure _) fun _ => .bind (sendToClient_watches _ _ _) fun _ => .pure _
  | client c =>
    refine .ite (fun _ => .pure _) fun _ => .bind (.watch _) fun s => ?_
    exact .bind (sendToServer_watches _ _ _ _) fun _ => .pure _

end Writes

end K

/-! ## Reads that are refused -/

section Read
variable {f : File} {count : BitVec 32} {s : State} {k : Heap} {p : Package} {xs : List Byte}

/-- The next package does not fit into `count` bytes. -/
def Refused (f : File) (count : BitVec 32) (s : State) : Prop :=
  ∃ p t, receivePacket f s = .ok (p, t) ∧ count < p.size + 8

/-- A read that returns leaves the queue as it was. -/
def KeepsQueue (f : File) (count : BitVec 32) (s : State) (k : Heap) : Prop :=
  ∀ r t, K.read f count (s, k) = .ok (r, t) → t.1.msgList f = s.msgList f

/-- A read that returns leaves the blocks as they were. -/
def KeepsBlocks (f : File) (count : BitVec 32) (s : State) (k : Heap) : Prop :=
  ∀ r t, K.read f count (s, k) = .ok (r, t) → t.2.live = k.live

theorem read_refused {t : State} (hp : receivePacket f s = .ok (p, t)) (hc : count < p.size + 8)
    (k : Heap) : K.read f count (s, k) = .ok ((-1, []), (t, k.malloc)) := by
  have hk := K.receivePacket_ok hp k
  cases f with
  | server _ =>
    simp only [K.read, K.readServer]
    rw [bind_ok hk]
    simp only [if_pos hc, pure_apply]
  | client _ =>
    simp only [K.read, K.readClient]
    rw [bind_ok hk]
    simp only [if_pos hc, pure_apply]

/-- What is received is gone from the queue. -/
theorem receivePacket_takes {t : State} (h : (s.msgList f).Carries xs)
    (hp : receivePacket f s = .ok (p, t)) :
    ∃ ys, (t.msgList f).Carries ys ∧ ys.length + 4 ≤ xs.length := by
  obtain ⟨size, s₁, h₁, hp⟩ := bind_eq_ok.mp hp
  obtain ⟨rest, s₂, h₂, hp⟩ := bind_eq_ok.mp hp
  cases hp
  obtain ⟨ys, rfl, hsize, hy⟩ := get_ok h h₁
  obtain ⟨zs, rfl, -, hz⟩ := get_ok hy h₂
  refine ⟨zs, hz, ?_⟩
  have h4 : size.length = 4 := hsize
  rw [List.length_append, List.length_append]
  omega

theorem refused_keeps_nothing (h : Refused f count s) :
    ¬ KeepsBlocks f count s k ∧ ∀ xs, (s.msgList f).Carries xs → ¬ KeepsQueue f count s k := by
  obtain ⟨p, t, hp, hc⟩ := h
  have hr := read_refused hp hc k
  refine ⟨fun hk => Heap.malloc_ne (hk _ _ hr), fun xs hx hq => ?_⟩
  obtain ⟨ys, hy, hlen⟩ := receivePacket_takes hx hp
  have he := hx.unread_eq
  rw [← hq _ _ hr, hy.unread_eq] at he
  omega

/-- The server at 4096 has a package of one byte from its client at 8192. -/
def onePackage : State :=
  ⟨fun _ => 4096, fun _ => [8192], fun _ =>
    ((CircleQueue.init 4000).putPass (pack 1 8192 fun _ => 7).bytes 9).2⟩

theorem refused_keeps_nothing_one : ¬ KeepsBlocks (.server 4096) 8 onePackage Heap.empty ∧
    ∀ xs, (onePackage.msgList (.server 4096)).Carries xs →
      ¬ KeepsQueue (.server 4096) 8 onePackage Heap.empty := by
  have hp : (receivePacket (.server 4096) onePackage).map Prod.fst = .ok ⟨1, 8192, [7]⟩ := by
    decide +kernel
  obtain ⟨t, ht⟩ := ok_of_result hp
  exact refused_keeps_nothing ⟨_, t, ht, by decide⟩

/-- A buffer of eight bytes is too small for the package, and the next reader waits for another. -/
theorem refused_package_lost :
    (readServer 4096 100 onePackage).map Prod.fst = .ok (9, (pack 1 8192 fun _ => 7).bytes) ∧
    (K.readServer 4096 8 (onePackage, Heap.empty)).map (fun r => (r.1, r.2.2.live)) =
      .ok ((-1, []), {0}) ∧
    ((readServer 4096 8 >>= fun _ => readServer 4096 100) onePackage).map Prod.fst =
      .error .wait := by
  decide +kernel

end Read

/-! ## Writes -/

section Write
variable {others : File → List (State → State)} {f : File} {buf data : Nat → Byte}
  {size count : BitVec 32} {s : State} {t : State × Heap} {k : Heap} {r : BitVec 32}

/-- The tests that a call may fail. -/
def Refuses (s : State) (f : File) (buf : Nat → Byte) (count : BitVec 32) : Prop :=
  match f with
  | .server p => maxPacketSize < count - 4 ∨ target buf ≠ 0 ∧ s.server (target buf) ≠ p
  | .client _ => maxPacketSize < count

/-- What a call that has returned should have done. -/
structure Staged (others : File → List (State → State)) (f : File) (buf : Nat → Byte)
    (count : BitVec 32) (s : State) (k : Heap) (r : BitVec 32) (t : State × Heap) : Prop where
  blocks : t.2.live = k.live
  returned : ¬ Refuses s f buf count → r = count
  delivered : ∀ p, f = .server p → target buf = 0 → ¬ Refuses s f buf count → ∀ c ∈ s.clients p,
    ∀ r' u, K.sendToClient others c (count - 4) (fun i => buf (4 + i)) (s, k) = .ok (r', u) →
      t.1.msgList (.client c) = u.1.msgList (.client c)

theorem retry_ok {α : Type} {m : M α} {es : List (State → State)} {s t : State} {a : α}
    (h : retry es m s = .ok (a, t)) : ∃ s', m s' = .ok (a, t) := by
  induction es generalizing s with
  | nil => exact ⟨s, h⟩
  | cons other others ih =>
    unfold retry at h
    split at h
    · exact ih h
    · exact ⟨s, h⟩

theorem put_returns {data : List Byte} {s t : State} (h : ioqueuePutData f data s = .ok (r, t)) :
    r = BitVec.ofNat 32 data.length := by
  obtain ⟨_, _, -, h⟩ := bind_eq_ok.mp h
  obtain ⟨_, _, -, h⟩ := bind_eq_ok.mp h
  obtain ⟨_, _, -, h⟩ := bind_eq_ok.mp h
  cases h
  rfl

theorem packed_length (size : BitVec 32) (source : Addr) (data : Nat → Byte) :
    BitVec.ofNat 32 (pack size source data).bytes.length = size + 8 := by
  apply BitVec.eq_of_toNat_eq
  rw [Package.length_bytes, ← pack_size, BitVec.toNat_ofNat, BitVec.toNat_add]
  change (8 + size.toNat) % 2 ^ 32 = (size.toNat + 8) % 2 ^ 32
  rw [Nat.add_comm]

/-- A package that is sent leaves its block behind. -/
theorem stage_ok {source : Addr}
    (h : (K.sysMalloc >>= fun _ => K.ioqueuePutData others f (pack size source data).bytes) (s, k) =
      .ok (r, t)) : r = size + 8 ∧ t.2 = k.malloc := by
  obtain ⟨_, _, hm, h⟩ := bind_eq_ok.mp h
  cases hm
  obtain ⟨hput, ht⟩ := watch_eq_ok h
  obtain ⟨s', hs⟩ := retry_ok hput
  exact ⟨(put_returns hs).trans (packed_length ..), ht⟩

theorem broadcast_ok {cs : List Addr} {u : Unit}
    (h : K.broadcast others size data cs (s, k) = .ok (u, t)) :
    t.2 = Heap.malloc^[cs.length] k := by
  induction cs generalizing s k with
  | nil =>
    cases h
    rfl
  | cons c cs ih =>
    obtain ⟨_, ⟨s₁, k₁⟩, h₁, h⟩ := bind_eq_ok.mp h
    obtain ⟨-, rfl⟩ := stage_ok h₁
    exact ih h

theorem writeServer_ok {p : Addr} (h : K.writeServer others p buf count (s, k) = .ok (r, t)) :
    Refuses s (.server p) buf count ∧ t.2 = k ∨
    ¬ Refuses s (.server p) buf count ∧
      (target buf = 0 ∧ r = count ∧ t.2 = Heap.malloc^[(s.clients p).length] k ∨
        target buf ≠ 0 ∧ t.2 = k.malloc) := by
  unfold K.writeServer at h
  by_cases hbig : maxPacketSize < count - 4
  · rw [if_pos hbig] at h
    cases h
    exact .inl ⟨.inl hbig, rfl⟩
  rw [if_neg hbig] at h
  obtain ⟨_, _, hs, h⟩ := bind_eq_ok.mp h
  cases hs
  by_cases h0 : target buf = 0
  · have hn : ¬ Refuses s (.server p) buf count := fun hr => hr.elim hbig fun hr => hr.1 h0
    rw [if_pos h0] at h
    obtain ⟨_, ⟨s₁, k₁⟩, hb, h⟩ := bind_eq_ok.mp h
    cases h
    exact .inr ⟨hn, .inl ⟨h0, rfl, broadcast_ok hb⟩⟩
  rw [if_neg h0] at h
  by_cases hp : s.server (target buf) ≠ p
  · rw [if_pos hp] at h
    cases h
    exact .inl ⟨.inr ⟨h0, hp⟩, rfl⟩
  · have hn : ¬ Refuses s (.server p) buf count := fun hr => hr.elim hbig fun hr => hp hr.2
    rw [if_neg hp] at h
    obtain ⟨_, ⟨s₁, k₁⟩, hput, h⟩ := bind_eq_ok.mp h
    cases h
    exact .inr ⟨hn, .inr ⟨h0, (stage_ok hput).2⟩⟩

theorem writeClient_ok {c : Addr} (h : K.writeClient others c buf count (s, k) = .ok (r, t)) :
    Refuses s (.client c) buf count ∧ t.2 = k ∨
    ¬ Refuses s (.client c) buf count ∧ t.2 = k.malloc := by
  unfold K.writeClient at h
  by_cases hbig : maxPacketSize < count
  · rw [if_pos hbig] at h
    cases h
    exact .inl ⟨hbig, rfl⟩
  · rw [if_neg hbig] at h
    obtain ⟨_, _, hs, h⟩ := bind_eq_ok.mp h
    cases hs
    obtain ⟨_, ⟨s₁, k₁⟩, hput, h⟩ := bind_eq_ok.mp h
    cases h
    exact .inr ⟨hbig, (stage_ok hput).2⟩

theorem iterate_malloc_live {n : Nat} (h : (Heap.malloc^[n] k).live = k.live) : n = 0 := by
  have hc := congrArg Finset.card h
  rw [Heap.card_iterate] at hc
  omega

theorem staged_iff (h : K.write others f buf count (s, k) = .ok (r, t)) :
    Staged others f buf count s k r t ↔
      Refuses s f buf count ∨ ∃ p, f = .server p ∧ target buf = 0 ∧ s.clients p = [] := by
  cases f with
  | server p =>
    rcases writeServer_ok h with ⟨hr, ht⟩ | ⟨hn, ⟨h0, hc, ht⟩ | ⟨h0, ht⟩⟩
    · refine ⟨fun _ => .inl hr, fun _ => ⟨by rw [ht], fun hn => absurd hr hn, ?_⟩⟩
      exact fun _ _ _ hn => absurd hr hn
    · constructor
      · intro hs
        have hl := hs.blocks
        rw [ht] at hl
        exact .inr ⟨p, rfl, h0, List.eq_nil_of_length_eq_zero (iterate_malloc_live hl)⟩
      · rintro (hr | ⟨_, hp, -, hnil⟩)
        · exact absurd hr hn
        · cases hp
          rw [hnil] at ht
          refine ⟨by rw [ht]; rfl, fun _ => hc, ?_⟩
          rintro _ hp - - c hmem
          cases hp
          rw [hnil] at hmem
          cases hmem
    · constructor
      · intro hs
        exact absurd (ht ▸ hs.blocks) Heap.malloc_ne
      · rintro (hr | ⟨_, -, hz, -⟩)
        · exact absurd hr hn
        · exact absurd hz h0
  | client c =>
    rcases writeClient_ok h with ⟨hr, ht⟩ | ⟨hn, ht⟩
    · refine ⟨fun _ => .inl hr, fun _ => ⟨by rw [ht], fun hn => absurd hr hn, ?_⟩⟩
      exact fun _ _ _ hn => absurd hr hn
    · constructor
      · intro hs
        exact absurd (ht ▸ hs.blocks) Heap.malloc_ne
      · rintro (hr | ⟨_, hp, -⟩)
        · exact absurd hr hn
        · cases hp

/-- One byte for the client at 8192. -/
theorem staged_iff_unicast : ∃ r t,
    K.write K.alone (.server 4096) (fun i => (le32 8192).getD i 7) 5 (onePackage, Heap.empty) =
      .ok (r, t) ∧
    ¬ Staged K.alone (.server 4096) (fun i => (le32 8192).getD i 7) 5 onePackage Heap.empty r t := by
  have hwrite : (K.write K.alone (.server 4096) (fun i => (le32 8192).getD i 7) 5
      (onePackage, Heap.empty)).map Prod.fst = .ok 13 := by
    decide +kernel
  obtain ⟨t, ht⟩ := ok_of_result hwrite
  refine ⟨13, t, ht, fun hs => ?_⟩
  rcases (staged_iff ht).mp hs with hr | ⟨_, -, hz, -⟩
  · rcases hr with hbig | ⟨-, hother⟩
    · exact absurd hbig (by decide)
    · exact hother (by decide +kernel)
  · exact absurd hz (by decide +kernel)

/-- One byte to the client at 8192: for itself, in a broadcast and from the client. -/
theorem sends_leak :
    (K.write K.alone (.server 4096) (fun i => (le32 8192).getD i 7) 5
      (onePackage, Heap.empty)).map (fun r => (r.1, r.2.2.live)) = .ok (13, {0}) ∧
    (K.write K.alone (.server 4096) (fun i => (le32 0).getD i 7) 5
      (onePackage, Heap.empty)).map (fun r => (r.1, r.2.2.live)) = .ok (5, {0}) ∧
    (K.write K.alone (.client 8192) (fun _ => 7) 1
      (onePackage, Heap.empty)).map (fun r => (r.1, r.2.2.live)) = .ok (1, {0}) := by
  decide +kernel

end Write

/-! ## What a broadcast puts into the queues -/

section Broadcast
variable {c : Addr} {cs : List Addr} {size r : BitVec 32} {data : Nat → Byte} {s t : State}
  {u : Unit}

theorem put_eq {f : File} {bytes : List Byte} (h : ioqueuePutData f bytes s = .ok (r, t)) :
    t = s.setMsgList f ((s.msgList f).putPass bytes bytes.length).2 := by
  obtain ⟨_, _, hs, h⟩ := bind_eq_ok.mp h
  cases hs
  obtain ⟨_, _, hc, h⟩ := bind_eq_ok.mp h
  obtain ⟨-, rfl⟩ := check_eq_ok.mp hc
  cases h
  rfl

theorem broadcast_frame (h : broadcast size data cs s = .ok (u, t)) (hc : c ∉ cs) :
    t.msgList (.client c) = s.msgList (.client c) := by
  induction cs generalizing s with
  | nil =>
    cases h
    rfl
  | cons d cs ih =>
    obtain ⟨_, s₁, h₁, h⟩ := bind_eq_ok.mp h
    have hne : File.client c ≠ .client d := fun he => hc (File.client.inj he ▸ List.mem_cons_self)
    rw [ih h fun hm => hc (List.mem_cons_of_mem _ hm), put_eq h₁, setMsgList_other hne]

theorem broadcast_eq (hnd : cs.Nodup) (h : broadcast size data cs s = .ok (u, t)) (hc : c ∈ cs) :
    t.msgList (.client c) = ((s.msgList (.client c)).putPass (pack size 0 data).bytes
      (pack size 0 data).bytes.length).2 := by
  induction cs generalizing s with
  | nil => cases hc
  | cons d cs ih =>
    obtain ⟨hd, hnd⟩ := List.nodup_cons.mp hnd
    obtain ⟨_, s₁, h₁, h₂⟩ := bind_eq_ok.mp h
    rcases List.mem_cons.mp hc with rfl | hm
    · rw [broadcast_frame h₂ hd, put_eq h₁, setMsgList_self]
    · have hne : File.client c ≠ .client d := fun he => hd (File.client.inj he ▸ hm)
      rw [ih hnd h₂ hm, put_eq h₁, setMsgList_other hne]

/-- Each client of a broadcast gets what it would get if it were the only one. -/
theorem broadcast_delivers (hnd : cs.Nodup) (h : broadcast size data cs s = .ok (u, t)) (hc : c ∈ cs)
    {v : State} (hv : sendToClient c size data s = .ok (r, v)) :
    t.msgList (.client c) = v.msgList (.client c) := by
  rw [broadcast_eq hnd h hc, put_eq hv, setMsgList_self]

end Broadcast

end Frog.PackageFs
