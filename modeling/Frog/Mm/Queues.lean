import Frog.Mm.KernelPage

/-!
# The pages of a queue

`init_ioqueue` and `destory_ioqueue` of `core/lib/ioqueue.c`, with the pages that the kernel gives for
a queue. The records of the queue are kept elsewhere.
-/

namespace Frog.Mm

set_option autoImplicit false
open Bytes Prog
open Fs (u32 u32Sub)

/-- `sizeof(CircleQueue)`: a lock of 20 bytes, two list heads and three words. -/
def circleQueueSize : BitVec 32 := 48

def divRoundUp (n d : BitVec 32) : BitVec 32 := (n + d - 1) / d

/-- `pg_count` of `init_ioqueue`. -/
def pgCount (size : BitVec 32) : BitVec 32 :=
  if 4096 + circleQueueSize < size then divRoundUp size (4096 + circleQueueSize) else 1

/-- `INIT_LIST_HEAD`. -/
def initListHead (list : Nat) : M Unit := do
  store32 list list
  store32 (list + 4) list

def lockInit (lock : Nat) : M Unit := do
  store32 lock 0
  store32 (lock + 16) 0
  store32 (lock + 4) 1
  initListHead (lock + 8)

def initHeader (queue : Nat) (size : BitVec 32) : M Unit := do
  lockInit queue
  store32 (queue + 36) 0
  store32 (queue + 40) 0
  store32 (queue + 44) size.toNat
  initListHead (queue + 28)
  initListHead (queue + 20)

def initIoqueue (size : BitVec 32) : M Nat := do
  let queue ← getKernelPage (pgCount size).toNat
  if queue = 0 then pure 0
  else do
    initHeader queue size
    pure queue

def destoryIoqueue (queue : Nat) : M Unit := mfreePage .kernel queue 1

/-! ## The header -/

section Header
variable {q o : Nat}

theorem initListHead_inPage (hq : q % pgSize = 0) (hlt : q + pgSize ≤ 2 ^ 32)
    (ho : o + 8 ≤ pgSize) : InPage q (initListHead (q + o)) :=
  (store32_inPage _ hq hlt (by omega)).bind (by unfold pgSize; omega)
    (store32_inPage (o := o + 4) _ hq hlt (by omega))

theorem initHeader_inPage (size : BitVec 32) (hq : q % pgSize = 0) (hlt : q + pgSize ≤ 2 ^ 32) :
    InPage q (initHeader q size) := by
  have hp : q / pgSize < 2 ^ 20 := by
    unfold pgSize at *
    omega
  have hs : ∀ o w, o ≤ 48 → InPage q (store32 (q + o) w) := fun o w ho =>
    store32_inPage w hq hlt (by unfold pgSize; omega)
  have hl : ∀ o, o ≤ 48 → InPage q (initListHead (q + o)) := fun o ho =>
    initListHead_inPage hq hlt (by unfold pgSize; omega)
  have hlock : InPage q (lockInit q) := by
    refine (hs 0 0 (by norm_num)).bind hp ?_
    refine (hs 16 0 (by norm_num)).bind hp ?_
    exact (hs 4 1 (by norm_num)).bind hp (hl 8 (by norm_num))
  refine hlock.bind hp ?_
  refine (hs 36 0 (by norm_num)).bind hp ?_
  refine (hs 40 0 (by norm_num)).bind hp ?_
  refine (hs 44 _ (by norm_num)).bind hp ?_
  exact (hl 28 (by norm_num)).bind hp (hl 20 (by norm_num))

end Header

/-! ## The addresses of a queue -/

section Addresses
variable {s t u : State} {n queue : Nat} {size : BitVec 32}

theorem Touched.viraddr (h : Touched s t) : t.kernelViraddr = s.kernelViraddr := by
  obtain ⟨mem, cr3, pool, tcb, rfl⟩ := h
  rfl

theorem initListHead_touch (list : Nat) : Within Touched (initListHead list) :=
  (store32_touch _ _).bind fun _ => store32_touch _ _

theorem initHeader_touch (queue : Nat) (size : BitVec 32) : Within Touched (initHeader queue size) := by
  have hlock : Within Touched (lockInit queue) := by
    refine (store32_touch _ _).bind fun _ => (store32_touch _ _).bind fun _ => ?_
    exact (store32_touch _ _).bind fun _ => initListHead_touch _
  refine hlock.bind fun _ => (store32_touch _ _).bind fun _ => (store32_touch _ _).bind fun _ => ?_
  refine (store32_touch _ _).bind fun _ => (initListHead_touch _).bind fun _ => ?_
  exact initListHead_touch _

/-- The `n` addresses from `queue` on were free and are taken, and no others. -/
def TakesAddresses (n queue : Nat) (s t : State) : Prop :=
  ∃ pos, s.kernelViraddr.vaddrBitmap.findBlock n = some pos ∧ queue = pos * pgSize + kHeapStart ∧
    t.kernelViraddr.vaddrStart = kHeapStart ∧ ∀ i, t.kernelViraddr.vaddrBitmap.getValue i =
      if pos ≤ i ∧ i < pos + n then true else s.kernelViraddr.vaddrBitmap.getValue i

theorem TakesAddresses.then_same (h : TakesAddresses n queue s t)
    (hs : u.kernelViraddr = t.kernelViraddr) : TakesAddresses n queue s u := by
  unfold TakesAddresses
  rw [hs]
  exact h

theorem mallocPage_takes (hs : Paged s) (h : mallocPage .kernel n s = .ok (queue, t))
    (hq : queue ≠ 0) : 0 < n ∧ TakesAddresses n queue s t := by
  obtain ⟨_, _, hc, h₁⟩ := bind_eq_ok.mp h
  obtain ⟨hn, rfl⟩ := check_eq_ok.mp hc
  obtain ⟨v, s₁, hv, h₂⟩ := bind_eq_ok.mp h₁
  by_cases hv0 : v = 0
  · rw [if_pos hv0] at h₂
    cases h₂
    exact absurd rfl hq
  rw [if_neg hv0] at h₂
  obtain ⟨pos, b, hf, hvpos, hb, rfl⟩ := getFreeVaddress_kernel hs hv hv0
  obtain ⟨ok, s₂, hput, h₃⟩ := bind_eq_ok.mp h₂
  have hsame := (putPages_touch _ _ _ _ _ _ hput).viraddr
  cases ok with
  | false =>
    cases h₃
    exact absurd rfl hq
  | true =>
    cases h₃
    refine ⟨hn, pos, hf, hvpos, ?_, fun i => ?_⟩
    · rw [hsame]
      exact hs.start
    · rw [hsame]
      exact (setValues_ok hb).2 i

/-- A call that succeeds gets its pages with the lock of the pool and keeps their addresses. -/
theorem initIoqueue_malloc (h : initIoqueue size s = .ok (queue, t)) (hq : queue ≠ 0) :
    ∃ held s₁, mallocPage .kernel (pgCount size).toNat { s with held := held } = .ok (queue, s₁) ∧
      t.kernelViraddr = s₁.kernelViraddr := by
  have hend : Within (SamePart State.kernelViraddr) (lockRelease (.pool .kernel)) :=
    within_get.bind fun _ => (within_check _ _).bind fun _ => within_modify fun _ => rfl
  obtain ⟨q, s₂, hg, h₁⟩ := bind_eq_ok.mp h
  by_cases hq0 : q = 0
  · rw [if_pos hq0] at h₁
    cases h₁
    exact absurd rfl hq
  rw [if_neg hq0] at h₁
  obtain ⟨_, s₃, hh, h₂⟩ := bind_eq_ok.mp h₁
  cases h₂
  obtain ⟨_, _, hl, hg₁⟩ := bind_eq_ok.mp hg
  cases hl
  obtain ⟨v, s₁, hm, hg₂⟩ := bind_eq_ok.mp hg₁
  by_cases hv0 : v = 0
  · rw [if_neg (not_not.mpr hv0)] at hg₂
    obtain ⟨_, _, -, hg₃⟩ := bind_eq_ok.mp hg₂
    cases hg₃
    exact absurd hv0 hq
  rw [if_pos hv0] at hg₂
  obtain ⟨_, s₄, hclear, hg₃⟩ := bind_eq_ok.mp hg₂
  obtain ⟨_, s₅, hrel, hg₄⟩ := bind_eq_ok.mp hg₃
  cases hg₄
  refine ⟨_, s₁, hm, ?_⟩
  exact (initHeader_touch _ _ _ _ _ hh).viraddr.trans
    ((hend _ _ _ hrel).trans (clear_touch _ _ _ _ _ hclear).viraddr)

theorem initIoqueue_takes (hs : Paged s) (h : initIoqueue size s = .ok (queue, t))
    (hq : queue ≠ 0) : 0 < (pgCount size).toNat ∧ TakesAddresses (pgCount size).toNat queue s t := by
  obtain ⟨held, s₁, hm, hsame⟩ := initIoqueue_malloc h hq
  obtain ⟨hn, htake⟩ := mallocPage_takes (hs.with_held held) hm hq
  exact ⟨hn, TakesAddresses.then_same htake hsame⟩

/-- Where a page was put at an address, the pool had one. -/
theorem mallocPage_page (hs : Paged s) (h : mallocPage .kernel 1 s = .ok (queue, t))
    (hq : queue ≠ 0) : ∃ i, (s.pool .kernel).poolBitmap.findBlock 1 = some i := by
  cases hi : (s.pool .kernel).poolBitmap.findBlock 1 with
  | some i => exact ⟨i, rfl⟩
  | none =>
    obtain ⟨t', ht, -⟩ := mallocPage_none hs (.inr hi)
    cases h.symm.trans ht
    exact absurd rfl hq

/-- Only the first address of a queue is given back. -/
theorem destoryIoqueue_frees (hstart : t.kernelViraddr.vaddrStart = kHeapStart) {pos : Nat}
    (htop : pos * pgSize + kHeapStart < 2 ^ 32)
    (h : destoryIoqueue (pos * pgSize + kHeapStart) t = .ok ((), u)) {i : Nat} (hi : i ≠ pos) :
    u.kernelViraddr.vaddrBitmap.getValue i = t.kernelViraddr.vaddrBitmap.getValue i := by
  obtain ⟨_, s₁, hfree, h₁⟩ := bind_eq_ok.mp h
  rw [(freePages_touch _ _ _ _ _ _ h₁).viraddr]
  obtain ⟨v, _, hv, hfree⟩ := bind_eq_ok.mp hfree
  cases hv
  have hpos : u32Sub (pos * pgSize + kHeapStart) t.kernelViraddr.vaddrStart / pgSize = pos := by
    rw [hstart, Fs.u32Sub_of_le (by omega) htop]
    unfold pgSize
    omega
  obtain ⟨b, _, hb, hset⟩ := bind_eq_ok.mp hfree
  rw [hpos] at hb
  obtain ⟨_, _, hc, hb⟩ := bind_eq_ok.mp hb
  cases (check_eq_ok.mp hc).2
  obtain ⟨_, _, hc, hb⟩ := bind_eq_ok.mp hb
  cases (check_eq_ok.mp hc).2
  obtain ⟨rfl, hbits⟩ := setValues_ok hb
  cases hset
  exact (hbits i).trans (if_neg (by omega))

/-! ### How many pages -/

theorem pgCount_small (h : size.toNat ≤ 4144) : (pgCount size).toNat = 1 := by
  unfold pgCount
  rw [if_neg]
  · rfl
  · intro hlt
    have hlt : 4144 < size.toNat := BitVec.lt_def.mp hlt
    omega

/-- The sum may wrap, and then there is no page. -/
theorem pgCount_large (h : 4144 < size.toNat) :
    (pgCount size).toNat = (size.toNat + 4143) % 2 ^ 32 / 4144 := by
  have hlt : 4096 + circleQueueSize < size := BitVec.lt_def.mpr (show 4144 < size.toNat from h)
  unfold pgCount
  rw [if_pos hlt]
  have hd : (4096 + circleQueueSize).toNat = 4144 := rfl
  have h1 : (1 : BitVec 32).toNat = 1 := rfl
  unfold divRoundUp
  have hs : (2 ^ 32 - 1 + (size.toNat + 4144) % 2 ^ 32) % 2 ^ 32 = (size.toNat + 4143) % 2 ^ 32 := by
    omega
  rw [BitVec.toNat_udiv, BitVec.toNat_sub, BitVec.toNat_add, hd, h1, hs]

/-- A queue that was made is small. -/
theorem size_lt (hs : Paged s) (h : initIoqueue size s = .ok (queue, t)) (hq : queue ≠ 0) :
    size.toNat < 2 ^ 31 := by
  obtain ⟨h0, pos, hf, -⟩ := initIoqueue_takes hs h hq
  have hend := (Bitmap.findBlock_clear hf).1
  have htop := hs.top
  unfold kHeapStart pgSize at htop
  by_cases hsz : size.toNat ≤ 4144
  · omega
  · rw [pgCount_large (by omega)] at h0 hend
    have hlt := size.isLt
    by_cases hwrap : size.toNat + 4143 < 2 ^ 32
    · rw [Nat.mod_eq_of_lt hwrap] at hend
      omega
    · omega

end Addresses

/-! ## What the pages of a queue hold -/

section Queue
variable {s t : State} {queue : Nat} {size : BitVec 32}

/-- The header and the buffer lie in pages that were free and are taken. -/
def Holds (s t : State) (queue : Nat) (size : BitVec 32) : Prop :=
  ∀ i, i < circleQueueSize.toNat + size.toNat →
    s.kernelViraddr.vaddrBitmap.getValue ((queue + i - kHeapStart) / pgSize) = false ∧
    t.kernelViraddr.vaddrBitmap.getValue ((queue + i - kHeapStart) / pgSize) = true

/-- The addresses and the pages are as they were before the queue was made. -/
def GivesBack (s t : State) (queue : Nat) : Prop :=
  ∃ u, destoryIoqueue queue t = .ok ((), u) ∧ u.kernelViraddr = s.kernelViraddr ∧ u.pool = s.pool

/-- A queue in one page. -/
theorem initIoqueue_one {k i : Nat} (size : BitVec 32) (hs : Paged s) (hsize : size.toNat ≤ 4144)
    (hf : s.kernelViraddr.vaddrBitmap.findBlock 1 = some k)
    (hi : (s.pool .kernel).poolBitmap.findBlock 1 = some i) :
    ∃ t, initIoqueue size s = .ok (k * pgSize + kHeapStart, t) ∧ OnePage s t k i := by
  obtain ⟨hk, hmul, hend⟩ := ofKernel hs (Bitmap.findBlock_one hf).1
  obtain ⟨s₁, hg, hone⟩ := getKernelPage_one hs hf hi
  obtain ⟨table, hmap⟩ := hone.mapped
  obtain ⟨mem, hrun, hsame⟩ := initHeader_inPage (q := k * pgSize + kHeapStart) size
    (by unfold kHeapStart pgSize; omega) (by omega) s₁ table _ hmap
  refine ⟨{ s₁ with mem := mem }, ?_, hone.addresses, hone.pool, table, ?_⟩
  · unfold initIoqueue
    rw [pgCount_small hsize, bind_ok hg, if_neg (by unfold kHeapStart; omega), bind_ok hrun]
    rfl
  · exact hmap.congr (by unfold pgSize at *; omega) (hsame _ (Ne.symm hmap.page.1))
      (hsame _ (Ne.symm hmap.page.2))

theorem initIoqueue_none (size : BitVec 32) (hs : Paged s) (hsize : size.toNat ≤ 4144)
    (h : s.kernelViraddr.vaddrBitmap.findBlock 1 = none ∨
      (s.pool .kernel).poolBitmap.findBlock 1 = none) :
    ∃ t, initIoqueue size s = .ok (0, t) ∧ t.pool = s.pool := by
  obtain ⟨t, hg, hpool⟩ := getKernelPage_none hs h
  refine ⟨t, ?_, hpool⟩
  unfold initIoqueue
  rw [pgCount_small hsize, bind_ok hg]
  rfl

theorem queue_memory_iff (hs : Paged s) (h : initIoqueue size s = .ok (queue, t)) (hq : queue ≠ 0) :
    Holds s t queue size ∧ GivesBack s t queue ↔ size.toNat + 48 ≤ 4096 := by
  obtain ⟨hn, pos, hf, hpos, hstart, hbits⟩ := initIoqueue_takes hs h hq
  obtain ⟨hend, hclear⟩ := Bitmap.findBlock_clear hf
  have htop := hs.top
  constructor
  · rintro ⟨hholds, u, hd, haddr, -⟩
    by_contra hbig
    by_cases hsz : size.toNat ≤ 4144
    · rw [pgCount_small hsz] at hbits
      -- the byte behind the page
      obtain ⟨hc, ht⟩ := hholds pgSize (by
        change pgSize < 48 + size.toNat
        unfold pgSize
        omega)
      have hp : (queue + pgSize - kHeapStart) / pgSize = pos + 1 := by
        unfold pgSize at *
        omega
      rw [hp] at hc ht
      rw [hbits, if_neg (by omega), hc] at ht
      cases ht
    · have htwo : 2 ≤ (pgCount size).toNat := by
        rw [pgCount_large (by omega)] at hn ⊢
        have := size.isLt
        omega
      have hset := hbits (pos + 1)
      rw [if_pos (by omega)] at hset
      rw [hpos] at hd
      have hu := destoryIoqueue_frees hstart (by unfold pgSize kHeapStart at *; omega) hd
        (i := pos + 1) (by omega)
      rw [haddr, hset, hclear _ (by omega) (by omega)] at hu
      cases hu
  · intro hsmall
    rw [pgCount_small (by omega)] at hf hbits
    obtain ⟨held, s₁, hm, -⟩ := initIoqueue_malloc h hq
    rw [pgCount_small (by omega)] at hm
    obtain ⟨i, hi⟩ := mallocPage_page (hs.with_held held) hm hq
    obtain ⟨t', ht, hone⟩ := initIoqueue_one size hs (by omega) hf hi
    rw [ht, hpos] at h
    cases h
    obtain ⟨hlt, hpc, -⟩ := Bitmap.findBlock_one hf
    obtain ⟨hilt, hic, -⟩ := Bitmap.findBlock_one hi
    refine ⟨fun k hk => ?_, ?_⟩
    · have hk : k < 48 + size.toNat := hk
      have hp : (queue + k - kHeapStart) / pgSize = pos := by
        unfold pgSize at *
        omega
      rw [hp]
      exact ⟨hpc, (hbits pos).trans (if_pos (by omega))⟩
    · rw [hpos]
      exact mfreePage_one hs hlt hpc hilt hic hone

/-! ### After the boot -/

/-- The entries of the first directory: the tables follow it in memory. -/
def bootEntry (k : Nat) : Nat := if k = 1023 then 0x100007 else (0x101 + k) * pgSize + 7

/-- All is free: eight addresses and eight pages. -/
def booted : State := { noPages with
  mem := fun a => if a / pgSize = 0x100 then leByte (bootEntry (a % pgSize / 4)) (a % 4) else 0
  tcb := fun a => { noPages.tcb a with pgdir := 0 }
  pool := fun _ => ⟨⟨fun _ => 0, 1⟩, 0x1000000, 0x8000⟩
  kernelViraddr := ⟨⟨fun _ => 0, 1⟩, kHeapStart⟩ }

theorem booted_entry {k : Nat} (hk : k < 1024) :
    le32 booted.mem (booted.cr3 / pgSize * pgSize + 4 * k) = bootEntry k := by
  refine le32_of_bytes_lt (by unfold bootEntry pgSize; split <;> omega) fun i hi => ?_
  have ha : booted.cr3 / pgSize * pgSize + 4 * k + i = 0x100000 + 4 * k + i := rfl
  rw [ha]
  have h₁ : (0x100000 + 4 * k + i) / pgSize = 0x100 := by
    unfold pgSize
    omega
  have h₂ : (0x100000 + 4 * k + i) % pgSize / 4 = k := by
    unfold pgSize
    omega
  have h₃ : (0x100000 + 4 * k + i) % 4 = i := by omega
  simp only [booted, h₁, h₂, h₃, if_true]

theorem booted_leads {n : Nat} (hn : OfKernel n) :
    Leads booted.mem (booted.cr3 / pgSize * pgSize + 4 * (n / 1024)) (0x101 + n / 1024) := by
  have hk : n / 1024 < 1023 := by
    have h := hn.2
    unfold pgSize at h
    omega
  have he := booted_entry (Nat.lt_succ_of_lt hk)
  rw [bootEntry, if_neg hk.ne] at he
  unfold Leads
  rw [he]
  unfold pgSize
  omega

theorem booted_table {n : Nat} (hn : OfKernel n) : tableOf booted n = 0x101 + n / 1024 :=
  (booted_leads hn).2

theorem booted_paged : Paged booted where
  start := rfl
  top := by decide
  self := by
    unfold Leads
    rw [booted_entry (k := 1023) (by norm_num)]
    exact ⟨rfl, rfl⟩
  tables := by
    intro n hn
    rw [booted_table hn]
    have hd : booted.cr3 / pgSize = 0x100 := rfl
    exact ⟨by omega, booted_leads hn⟩
  apart := by
    intro n m hn hm h
    rw [booted_table hn, booted_table hm] at h
    omega
  spare := by
    rintro f ⟨i, hi, -, rfl⟩
    have hstart : (booted.pool .kernel).phyAddrStart / pgSize = 0x1000 := rfl
    have hd : booted.cr3 / pgSize = 0x100 := rfl
    refine ⟨by omega, fun n hn => ?_⟩
    have h := hn.2
    rw [booted_table hn, hstart]
    unfold pgSize at h
    omega
  pool := by decide
  thread := .inl ⟨rfl, rfl⟩

theorem queue_memory_iff_small : ∃ queue t, initIoqueue 4000 booted = .ok (queue, t) ∧
    (Holds booted t queue 4000 ∧ GivesBack booted t queue ↔ (4000 : BitVec 32).toNat + 48 ≤ 4096) := by
  obtain ⟨t, ht, -⟩ := initIoqueue_one (k := 0) (i := 0) 4000 booted_paged (by decide)
    (by decide) (by decide)
  exact ⟨_, t, ht, queue_memory_iff booted_paged ht (by decide)⟩

/-- Byte 4048 of the buffer of a pipe lies behind its page. -/
theorem pipe_queue_overruns : ∃ queue t, initIoqueue 4096 booted = .ok (queue, t) ∧
    ¬ Holds booted t queue 4096 := by
  obtain ⟨t, ht, hone⟩ := initIoqueue_one (k := 0) (i := 0) 4096 booted_paged (by decide)
    (by decide) (by decide)
  refine ⟨_, t, ht, fun h => ?_⟩
  have hbit := (h 4096 (by decide)).2
  rw [hone.addresses] at hbit
  revert hbit
  decide

end Queue

end Frog.Mm
