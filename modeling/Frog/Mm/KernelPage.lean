import Frog.Mm.Locks
import Frog.Mm.Mapped

/-!
# A page for the kernel

With paging set up, a page is put at the first free address of the kernel, and `mfree_page` gives both
back.
-/

namespace Frog.Mm

set_option autoImplicit false
open Bytes Prog
open Fs (u32 u32Sub)

/-! ## Stores into one page -/

/-- `m` returns and writes nothing but the page of `q`. -/
def InPage (q : Nat) (m : M Unit) : Prop :=
  ∀ s t f, Mapped s.mem (s.cr3 / pgSize) (q / pgSize) t f →
    ∃ mem, m s = .ok ((), { s with mem := mem }) ∧ ∀ p, p ≠ f → SamePage p s.mem mem

section InPage
variable {q o w : Nat} {m m' : M Unit}

theorem InPage.bind (hq : q / pgSize < 2 ^ 20) (h : InPage q m) (h' : InPage q m') :
    InPage q (m >>= fun _ => m') := by
  intro s t f hm
  obtain ⟨mem, h₁, hs₁⟩ := h s t f hm
  have hm' : Mapped mem (s.cr3 / pgSize) (q / pgSize) t f :=
    hm.congr hq (hs₁ _ (Ne.symm hm.page.1)) (hs₁ _ (Ne.symm hm.page.2))
  obtain ⟨mem', h₂, hs₂⟩ := h' { s with mem := mem } t f hm'
  refine ⟨mem', ?_, fun p hp a ha => (hs₂ p hp a ha).trans (hs₁ p hp a ha)⟩
  rw [bind_ok h₁, h₂]

theorem storeBytes_inPage (src : Store) (hq : q % pgSize = 0) (hlt : q + pgSize ≤ 2 ^ 32)
    {len : Nat} (ho : o + len ≤ pgSize) (hlen : 0 < len) : InPage q (storeBytes (q + o) src len) := by
  intro s t f hm
  have hpage : (q + o) / pgSize = q / pgSize := by
    unfold pgSize at *
    omega
  have hoff : (q + o) % pgSize = o := by
    unfold pgSize at *
    omega
  have hr : storeBytes (q + o) src len s = .ok ((), _) := storeBytes_ok (hpage ▸ hm.toMaps)
    (Ne.symm hm.page.1) (Ne.symm hm.page.2) (by omega) (by omega)
  exact ⟨_, hr, fun p hp => samePage_patch hp (by omega)⟩

theorem store32_inPage (w : Nat) (hq : q % pgSize = 0) (hlt : q + pgSize ≤ 2 ^ 32)
    (ho : o + 4 ≤ pgSize) : InPage q (store32 (q + o) w) :=
  storeBytes_inPage _ hq hlt ho (by norm_num)

theorem clear_inPage {len : Nat} (hq : q % pgSize = 0) (hlt : q + pgSize ≤ 2 ^ 32)
    (hlen : len = pgSize) : InPage q (clear q len) :=
  storeBytes_inPage (o := 0) _ hq hlt (by omega) (by rw [hlen]; norm_num [pgSize])

end InPage

/-! ## One page -/

/-- Entry `j` of page `p`, taken as a table. -/
def entry (mem : Store) (p j : Nat) : Nat := le32 mem (p * pgSize + 4 * j)

/-- The memory with a page at page `n`, entered in a table. -/
def withPage (mem : Store) (table n f : Nat) : Store :=
  patch mem (table * pgSize + 4 * (n % 1024)) 4 (leByte (entryOf (f * pgSize)))

/-- The entry of a page with its lowest bit cleared. -/
def cleared (mem : Store) (table q : Nat) : Store :=
  patch mem (table * pgSize + 4 * (q % 1024)) 4
    (leByte (entry mem table (q % 1024) &&& 0xfffffffe))

/-- The table of page `n` of the addresses. -/
def tableOf (s : State) (n : Nat) : Nat :=
  le32 s.mem (s.cr3 / pgSize * pgSize + 4 * (n / 1024)) / pgSize

/-- Between the start of the heap and the tables. -/
def OfKernel (n : Nat) : Prop := kHeapStart ≤ n * pgSize ∧ n * pgSize < 0xffc00000

/-- Page `f` of memory can be taken from the pool of the kernel. -/
def Spare (s : State) (f : Nat) : Prop :=
  ∃ i, i < (s.pool .kernel).poolBitmap.mapBytesLength * 8 ∧
    (s.pool .kernel).poolBitmap.getValue i = false ∧
    f = (s.pool .kernel).phyAddrStart / pgSize + i

/-- How the kernel runs once the loader has set up paging: its addresses have tables of their own,
which are not free pages, and the directory in use is that of the running thread. -/
structure Paged (s : State) : Prop where
  start : s.kernelViraddr.vaddrStart = kHeapStart
  top : kHeapStart + s.kernelViraddr.vaddrBitmap.mapBytesLength * 8 * pgSize ≤ 0xffc00000
  self : Leads s.mem (s.cr3 / pgSize * pgSize + 4 * 1023) (s.cr3 / pgSize)
  tables : ∀ n, OfKernel n → tableOf s n ≠ s.cr3 / pgSize ∧
    Leads s.mem (s.cr3 / pgSize * pgSize + 4 * (n / 1024)) (tableOf s n)
  apart : ∀ n m, OfKernel n → OfKernel m → tableOf s n = tableOf s m → n / 1024 = m / 1024
  spare : ∀ f, Spare s f → f ≠ s.cr3 / pgSize ∧ ∀ n, OfKernel n → f ≠ tableOf s n
  pool : (s.pool .kernel).phyAddrStart % pgSize = 0 ∧ 0 < (s.pool .kernel).phyAddrStart ∧
    (s.pool .kernel).phyAddrStart +
      (s.pool .kernel).poolBitmap.mapBytesLength * 8 * pgSize ≤ 2 ^ 32
  thread : (s.tcb s.cur).pgdir = 0 ∧ s.cr3 / pgSize = 0x100 ∨
    ∃ pos, s.kernelViraddr.vaddrBitmap.getValue pos = true ∧
      pos < s.kernelViraddr.vaddrBitmap.mapBytesLength * 8 ∧
      (s.tcb s.cur).pgdir = pos * pgSize + kHeapStart ∧
      Leads s.mem (tableOf s ((s.tcb s.cur).pgdir / pgSize) * pgSize +
        4 * ((s.tcb s.cur).pgdir / pgSize % 1024)) (s.cr3 / pgSize)

/-- The page of address `pos` of the kernel is page `i` of its pool. -/
structure OnePage (s t : State) (pos i : Nat) : Prop where
  addresses : t.kernelViraddr = { s.kernelViraddr with
    vaddrBitmap := s.kernelViraddr.vaddrBitmap.setValue pos true }
  pool : t.pool = Function.update s.pool .kernel { s.pool .kernel with
    poolBitmap := (s.pool .kernel).poolBitmap.setValue i true }
  mapped : ∃ table, Mapped t.mem (t.cr3 / pgSize) ((pos * pgSize + kHeapStart) / pgSize) table
    ((s.pool .kernel).phyAddrStart / pgSize + i)

section OnePage
variable {s t : State} {pos i v : Nat}

theorem entryOf_eq (f : Nat) : entryOf (f * pgSize) = f * pgSize + 7 := by
  have h12 := Nat.two_pow_add_eq_or_of_lt (i := 12) (b := 7) (by norm_num) f
  unfold entryOf pgSize
  rw [Nat.mul_comm]
  exact h12.symm

theorem leads_entryOf {mem : Store} {a f : Nat} (hf : (f + 1) * pgSize ≤ 2 ^ 32)
    (h : ∀ k, k < 4 → mem (a + k) = leByte (entryOf (f * pgSize)) k) : Leads mem a f := by
  have hw := le32_of_bytes_lt (v := f * pgSize + 7) (by unfold pgSize at *; omega)
    fun k hk => (h k hk).trans (by rw [entryOf_eq])
  unfold Leads
  rw [hw]
  unfold pgSize
  omega

/-- The entry of another address is where it was. -/
theorem leads_patch {mem src : Store} {p p' j j' f : Nat} (hj : j < 1024) (hj' : j' < 1024)
    (hne : p = p' → j ≠ j') (h : Leads mem (p' * pgSize + 4 * j') f) :
    Leads (patch mem (p * pgSize + 4 * j) 4 src) (p' * pgSize + 4 * j') f := by
  have he : le32 (patch mem (p * pgSize + 4 * j) 4 src) (p' * pgSize + 4 * j') =
      le32 mem (p' * pgSize + 4 * j') := by
    apply le32_congr
    intro k hk
    apply patch_out
    unfold pgSize
    by_cases hp : p = p'
    · have := hne hp
      omega
    · omega
  unfold Leads
  rw [he]
  exact h

/-- `invalidate` loads the directory that is in use. -/
theorem invalidate_ok (hself : Leads s.mem (s.cr3 / pgSize * pgSize + 4 * 1023) (s.cr3 / pgSize))
    (hthread : (s.tcb s.cur).pgdir = 0 ∧ s.cr3 / pgSize = 0x100 ∨
      (s.tcb s.cur).pgdir ≠ 0 ∧ (s.tcb s.cur).pgdir < 2 ^ 32 ∧
      ∃ table, Maps s.mem (s.cr3 / pgSize) ((s.tcb s.cur).pgdir / pgSize) table (s.cr3 / pgSize)) :
    ∃ cr3, invalidate s = .ok ((), { s with cr3 := cr3 }) ∧ cr3 / pgSize = s.cr3 / pgSize := by
  rcases hthread with ⟨h0, hd⟩ | ⟨hne, hlt, table, hm⟩
  · refine ⟨0x100000, ?_, hd.symm⟩
    unfold invalidate runningThread
    rw [bind_ok rfl]
    unfold flushCr3
    rw [if_pos h0]
    rfl
  · have hd : s.cr3 / pgSize < 2 ^ 20 := by
      have hw := le32_lt s.mem (s.cr3 / pgSize * pgSize + 4 * 1023)
      have he := hself.2
      unfold pgSize at *
      omega
    have hl := load_pte hself hlt hm.pde
    have ha : addrV2p (s.tcb s.cur).pgdir s = .ok (u32 (s.cr3 / pgSize * pgSize +
        (s.tcb s.cur).pgdir % pgSize), s) := by
      unfold addrV2p
      rw [bind_ok hl, hm.pte.2]
      rfl
    refine ⟨u32 (s.cr3 / pgSize * pgSize + (s.tcb s.cur).pgdir % pgSize), ?_, ?_⟩
    · unfold invalidate runningThread
      rw [bind_ok rfl]
      unfold flushCr3
      rw [if_neg hne, bind_ok ha]
      rfl
    · unfold u32 pgSize at *
      omega

/-- A page is put at an address that has a table. -/
theorem putPage_patch {n f table : Nat} (hn : n < 2 ^ 20) (hf : (f + 1) * pgSize ≤ 2 ^ 32)
    (hself : Leads s.mem (s.cr3 / pgSize * pgSize + 4 * 1023) (s.cr3 / pgSize))
    (hpde : Leads s.mem (s.cr3 / pgSize * pgSize + 4 * (n / 1024)) table)
    (htable : table ≠ s.cr3 / pgSize) (hpage : f ≠ s.cr3 / pgSize ∧ f ≠ table)
    (hthread : (s.tcb s.cur).pgdir = 0 ∧ s.cr3 / pgSize = 0x100 ∨
      (s.tcb s.cur).pgdir ≠ 0 ∧ (s.tcb s.cur).pgdir < 2 ^ 32 ∧
      ∃ table', Maps s.mem (s.cr3 / pgSize) ((s.tcb s.cur).pgdir / pgSize) table' (s.cr3 / pgSize) ∧
        (table = table' → n % 1024 ≠ (s.tcb s.cur).pgdir / pgSize % 1024)) :
    ∃ cr3, putPage (n * pgSize) (f * pgSize) s =
        .ok ((), { s with mem := withPage s.mem table n f, cr3 := cr3 }) ∧
      cr3 / pgSize = s.cr3 / pgSize ∧
      Mapped (withPage s.mem table n f) (s.cr3 / pgSize) n table f := by
  have hv : n * pgSize < 2 ^ 32 := by
    unfold pgSize
    omega
  have hvn : n * pgSize / pgSize = n := Nat.mul_div_cancel n (by norm_num [pgSize])
  have hload := load_pde hself hv
  have hpte := load_pte hself hv (hvn.symm ▸ hpde)
  have hstore := store_pte (w := entryOf (f * pgSize)) hself hv (hvn.symm ▸ hpde) (Ne.symm htable)
  rw [hvn] at hload hpte hstore
  let mem := withPage s.mem table n f
  have hsame : SamePage (s.cr3 / pgSize) s.mem mem :=
    samePage_patch (Ne.symm htable) (by unfold pgSize; omega)
  have hself' := hself.congr hsame (by norm_num)
  have hentry : Leads mem (table * pgSize + 4 * (n % 1024)) f := by
    refine leads_entryOf hf fun k hk => ?_
    exact (patch_in ⟨by omega, by omega⟩).trans (congrArg _ (by omega))
  obtain ⟨cr3, hinv, hcr3⟩ := invalidate_ok (s := { s with mem := mem }) hself' (by
    rcases hthread with h0 | ⟨hne, hlt, table', hm, hother⟩
    · exact .inl h0
    · refine .inr ⟨hne, hlt, table', hm.pde.congr hsame ?_, leads_patch ?_ ?_ hother hm.pte⟩
      · unfold pgSize
        omega
      · exact Nat.mod_lt _ (by norm_num)
      · exact Nat.mod_lt _ (by norm_num))
  refine ⟨cr3, ?_, hcr3, ⟨hpde.congr hsame (by omega), hentry⟩, hself', htable, hpage⟩
  unfold putPage putEntry
  rw [bind_ok hload, if_pos hpde.1, bind_ok hpte, bind_ok hstore]
  exact hinv

theorem ofKernel (hs : Paged s) (hp : pos < s.kernelViraddr.vaddrBitmap.mapBytesLength * 8) :
    OfKernel ((pos * pgSize + kHeapStart) / pgSize) ∧
      (pos * pgSize + kHeapStart) / pgSize * pgSize = pos * pgSize + kHeapStart ∧
      pos * pgSize + kHeapStart + pgSize ≤ 0xffc00000 := by
  have htop := hs.top
  unfold OfKernel kHeapStart pgSize at *
  omega

/-- The directory of the running thread lies at another address than a free one. -/
theorem thread_of_paged (hs : Paged s) (hp : pos < s.kernelViraddr.vaddrBitmap.mapBytesLength * 8)
    (hc : s.kernelViraddr.vaddrBitmap.getValue pos = false) :
    (s.tcb s.cur).pgdir = 0 ∧ s.cr3 / pgSize = 0x100 ∨
      (s.tcb s.cur).pgdir ≠ 0 ∧ (s.tcb s.cur).pgdir < 2 ^ 32 ∧
      ∃ table', Maps s.mem (s.cr3 / pgSize) ((s.tcb s.cur).pgdir / pgSize) table' (s.cr3 / pgSize) ∧
        (tableOf s ((pos * pgSize + kHeapStart) / pgSize) = table' →
          (pos * pgSize + kHeapStart) / pgSize % 1024 ≠ (s.tcb s.cur).pgdir / pgSize % 1024) := by
  rcases hs.thread with h0 | ⟨pos', hv, hlt, hdir, hpte⟩
  · exact .inl h0
  · obtain ⟨hk, hm, hend⟩ := ofKernel hs hp
    obtain ⟨hk', hm', hend'⟩ := ofKernel hs hlt
    rw [hdir] at hpte ⊢
    refine .inr ⟨by unfold kHeapStart; omega, by unfold pgSize at *; omega, _,
      ⟨(hs.tables _ hk').2, hpte⟩, fun he hmod => ?_⟩
    have hdiv := hs.apart _ _ hk hk' he
    have hpos : pos = pos' := by
      unfold kHeapStart pgSize at *
      omega
    rw [hpos, hv] at hc
    cases hc

theorem setValues_one {b : Bitmap} (hlt : pos < b.mapBytesLength * 8) (v : Bool) :
    setValues pos v 1 b t = .ok (b.setValue pos v, t) := by
  unfold setValues setValues
  rw [bind_ok (pure_apply _ _)]
  unfold setValueBitmap
  rw [Nat.add_zero, check_bind hlt]
  rfl

/-- The first free page of the pool is taken. -/
theorem getFreePage_kernel (hs : (s.pool .kernel).phyAddrStart % pgSize = 0 ∧
      0 < (s.pool .kernel).phyAddrStart ∧ (s.pool .kernel).phyAddrStart +
        (s.pool .kernel).poolBitmap.mapBytesLength * 8 * pgSize ≤ 2 ^ 32)
    (hf : (s.pool .kernel).poolBitmap.findBlock 1 = some i) :
    getFreePage .kernel s = .ok (((s.pool .kernel).phyAddrStart / pgSize + i) * pgSize, { s with
      pool := Function.update s.pool .kernel { s.pool .kernel with
        poolBitmap := (s.pool .kernel).poolBitmap.setValue i true } }) := by
  obtain ⟨hlt, -, -⟩ := Bitmap.findBlock_one hf
  obtain ⟨hmod, -, htop⟩ := hs
  have hpage : u32 (i * pgSize + (s.pool .kernel).phyAddrStart) =
      ((s.pool .kernel).phyAddrStart / pgSize + i) * pgSize := by
    rw [Fs.u32_of_lt (by unfold pgSize at *; omega)]
    unfold pgSize at *
    omega
  unfold getFreePage
  rw [bind_ok (get_apply s)]
  simp only [hf]
  unfold setValueBitmap
  rw [bind_ok (check_bind hlt _ _)]
  unfold setPoolBitmap
  rw [bind_ok (modify_apply _ _), hpage]
  rfl

/-- The first free address of the kernel is taken. -/
theorem getFreeVaddress_one (hs : Paged s)
    (hf : s.kernelViraddr.vaddrBitmap.findBlock 1 = some pos) :
    getFreeVaddress .kernel 1 s = .ok (pos * pgSize + kHeapStart, { s with
      kernelViraddr := { s.kernelViraddr with
        vaddrBitmap := s.kernelViraddr.vaddrBitmap.setValue pos true } }) := by
  obtain ⟨hlt, -, -⟩ := Bitmap.findBlock_one hf
  have htop := hs.top
  unfold getFreeVaddress viraddr
  rw [bind_ok (bind_ok (get_apply s))]
  simp only [hf]
  rw [bind_ok (setValues_one hlt true)]
  unfold setVaddrBitmap viraddr
  rw [bind_ok (bind_ok (bind_ok (get_apply s)))]
  simp only [hs.start]
  rw [Fs.u32_of_lt (by unfold kHeapStart pgSize at *; omega)]
  rfl

theorem getFreeVaddress_kernel (hs : Paged s) {n a : Nat}
    (h : getFreeVaddress .kernel n s = .ok (a, t)) (ha : a ≠ 0) :
    ∃ pos b, s.kernelViraddr.vaddrBitmap.findBlock n = some pos ∧ a = pos * pgSize + kHeapStart ∧
      setValues pos true n s.kernelViraddr.vaddrBitmap s = .ok (b, s) ∧
      t = { s with kernelViraddr := { s.kernelViraddr with vaddrBitmap := b } } := by
  obtain ⟨v, _, hv, h⟩ := bind_eq_ok.mp h
  cases hv
  cases hf : s.kernelViraddr.vaddrBitmap.findBlock n with
  | none =>
    rw [hf] at h
    cases h
    exact absurd rfl ha
  | some pos =>
    rw [hf] at h
    obtain ⟨b, _, hb, h⟩ := bind_eq_ok.mp h
    obtain ⟨rfl, -⟩ := setValues_ok hb
    obtain ⟨_, _, hm, h⟩ := bind_eq_ok.mp h
    cases hm
    cases h
    have hlt := (Bitmap.findBlock_clear hf).1
    have htop := hs.top
    refine ⟨pos, b, rfl, ?_, hb, rfl⟩
    rw [hs.start, Fs.u32_of_lt (by unfold kHeapStart pgSize at *; omega)]

/-- The address `pos` and the page `i` are taken. -/
def takePage (s : State) (pos i : Nat) : State :=
  { s with
    kernelViraddr := { s.kernelViraddr with
      vaddrBitmap := s.kernelViraddr.vaddrBitmap.setValue pos true }
    pool := Function.update s.pool .kernel { s.pool .kernel with
      poolBitmap := (s.pool .kernel).poolBitmap.setValue i true } }

/-- With an address and a page to be had, they are put together. -/
theorem mallocPage_put (hs : Paged s)
    (hf : s.kernelViraddr.vaddrBitmap.findBlock 1 = some pos)
    (hi : (s.pool .kernel).poolBitmap.findBlock 1 = some i) :
    let n := (pos * pgSize + kHeapStart) / pgSize
    let f := (s.pool .kernel).phyAddrStart / pgSize + i
    ∃ cr3, mallocPage .kernel 1 s = .ok (pos * pgSize + kHeapStart,
        { takePage s pos i with mem := withPage s.mem (tableOf s n) n f, cr3 := cr3 }) ∧
      cr3 / pgSize = s.cr3 / pgSize ∧
      Mapped (withPage s.mem (tableOf s n) n f) (s.cr3 / pgSize) n (tableOf s n) f := by
  intro n f
  obtain ⟨hlt, hclear, -⟩ := Bitmap.findBlock_one hf
  obtain ⟨hilt, hiclear, -⟩ := Bitmap.findBlock_one hi
  obtain ⟨hk, hmul, hend⟩ := ofKernel hs hlt
  obtain ⟨htd, hleads⟩ := hs.tables _ hk
  obtain ⟨hfd, hft⟩ := hs.spare _ ⟨i, hilt, hiclear, rfl⟩
  obtain ⟨hmod, hpos, htop⟩ := hs.pool
  have hthread := thread_of_paged hs hlt hclear
  let s₁ : State := { s with kernelViraddr := { s.kernelViraddr with
    vaddrBitmap := s.kernelViraddr.vaddrBitmap.setValue pos true } }
  have hpage : getFreePage .kernel s₁ = .ok (f * pgSize, takePage s pos i) :=
    getFreePage_kernel (s := s₁) hs.pool hi
  obtain ⟨cr3, hrun, hcr3, hmap⟩ := putPage_patch (n := n) (f := f) (s := takePage s pos i)
    (by unfold n pgSize at *; omega) (by unfold f pgSize at *; omega) hs.self
    hleads htd ⟨hfd, hft _ hk⟩ hthread
  rw [hmul] at hrun
  have hputs : putPages .kernel 1 (pos * pgSize + kHeapStart) s₁ =
      .ok (true, { takePage s pos i with mem := withPage s.mem (tableOf s n) n f, cr3 := cr3 }) := by
    unfold putPages
    rw [bind_ok hpage, if_neg (by unfold f pgSize at *; omega), bind_ok hrun]
    rfl
  refine ⟨cr3, ?_, hcr3, hmap⟩
  unfold mallocPage
  rw [check_bind Nat.one_pos, bind_ok (getFreeVaddress_one hs hf),
    if_neg (by unfold kHeapStart; omega), bind_ok hputs]
  rfl

/-- The addresses of the kernel after a call that found no page. -/
def Wasted (b b' : Bitmap) : Prop := b' = b ∨ ∃ pos, b.findBlock 1 = some pos ∧ b' = b.setValue pos true

/-- Without an address or a page there is nothing, but an address may stay taken. -/
theorem mallocPage_short (hs : Paged s) (h : s.kernelViraddr.vaddrBitmap.findBlock 1 = none ∨
    (s.pool .kernel).poolBitmap.findBlock 1 = none) :
    ∃ b, Wasted s.kernelViraddr.vaddrBitmap b ∧ mallocPage .kernel 1 s =
      .ok (0, { s with kernelViraddr := { s.kernelViraddr with vaddrBitmap := b } }) := by
  have hpage : ∀ s' : State, (s'.pool .kernel).poolBitmap.findBlock 1 = none →
      getFreePage .kernel s' = .ok (0, s') := by
    intro s' hi
    unfold getFreePage
    rw [bind_ok (get_apply _)]
    simp only [hi, pure_apply]
  cases hf : s.kernelViraddr.vaddrBitmap.findBlock 1 with
  | none =>
    have hv : getFreeVaddress .kernel 1 s = .ok (0, s) := by
      unfold getFreeVaddress viraddr
      rw [bind_ok (bind_ok (get_apply s))]
      simp only [hf, pure_apply]
    refine ⟨_, .inl rfl, ?_⟩
    unfold mallocPage
    rw [check_bind Nat.one_pos, bind_ok hv]
    rfl
  | some pos =>
    have hi := h.resolve_left (by rw [hf]; exact nofun)
    let s₁ : State := { s with kernelViraddr := { s.kernelViraddr with
      vaddrBitmap := s.kernelViraddr.vaddrBitmap.setValue pos true } }
    have hputs : putPages .kernel 1 (pos * pgSize + kHeapStart) s₁ = .ok (false, s₁) := by
      unfold putPages
      rw [bind_ok (hpage s₁ hi)]
      rfl
    refine ⟨_, .inr ⟨pos, hf, rfl⟩, ?_⟩
    unfold mallocPage
    rw [check_bind Nat.one_pos, bind_ok (getFreeVaddress_one hs hf),
      if_neg (by unfold kHeapStart; omega), bind_ok hputs]
    rfl

theorem mallocPage_none (hs : Paged s) (h : s.kernelViraddr.vaddrBitmap.findBlock 1 = none ∨
    (s.pool .kernel).poolBitmap.findBlock 1 = none) :
    ∃ t, mallocPage .kernel 1 s = .ok (0, t) ∧ t.pool = s.pool := by
  obtain ⟨b, -, hrun⟩ := mallocPage_short hs h
  exact ⟨_, hrun, rfl⟩

theorem Paged.with_held (hs : Paged s) (held : LockName → Nat) : Paged { s with held := held } :=
  ⟨hs.start, hs.top, hs.self, hs.tables, hs.apart, hs.spare, hs.pool, hs.thread⟩

theorem lockRelease_ok {l : LockName} (h : t.held l ≠ 0) :
    lockRelease l t = .ok ((), { t with held := Function.update t.held l (t.held l - 1) }) := by
  unfold lockRelease
  rw [bind_ok (get_apply t), check_bind h]
  rfl

/-- A page for the kernel is cleared. -/
theorem getKernelPage_put (hs : Paged s)
    (hf : s.kernelViraddr.vaddrBitmap.findBlock 1 = some pos)
    (hi : (s.pool .kernel).poolBitmap.findBlock 1 = some i) :
    let n := (pos * pgSize + kHeapStart) / pgSize
    let f := (s.pool .kernel).phyAddrStart / pgSize + i
    ∃ mem cr3 held, getKernelPage 1 s = .ok (pos * pgSize + kHeapStart,
        { takePage s pos i with mem := mem, cr3 := cr3, held := held }) ∧
      cr3 / pgSize = s.cr3 / pgSize ∧ (∀ p, p ≠ f → SamePage p (withPage s.mem (tableOf s n) n f) mem) ∧
      Mapped mem (s.cr3 / pgSize) n (tableOf s n) f := by
  intro n f
  obtain ⟨hk, hmul, hend⟩ := ofKernel hs (Bitmap.findBlock_one hf).1
  let s₁ : State := { s with
    held := Function.update s.held (.pool .kernel) (s.held (.pool .kernel) + 1) }
  obtain ⟨cr3, hm, hcr3, hmap⟩ := mallocPage_put (hs.with_held s₁.held) hf hi
  let s₂ : State := { takePage s₁ pos i with mem := withPage s.mem (tableOf s n) n f, cr3 := cr3 }
  have hm₂ : mallocPage .kernel 1 s₁ = .ok (pos * pgSize + kHeapStart, s₂) := hm
  -- with its length as a number the store would be unfolded byte by byte
  obtain ⟨len, hlen⟩ : ∃ len, u32 (1 * pgSize) = len := ⟨_, rfl⟩
  have hpg : len = pgSize := by
    rw [← hlen, Nat.one_mul]
    exact Fs.u32_of_lt (by norm_num [pgSize])
  have hmap₂ : Mapped s₂.mem (s₂.cr3 / pgSize) n (tableOf s n) f := by
    change Mapped (withPage s.mem (tableOf s n) n f) (cr3 / pgSize) n (tableOf s n) f
    rw [hcr3]
    exact hmap
  obtain ⟨mem, hrun, hsame⟩ := clear_inPage (q := pos * pgSize + kHeapStart)
    (by unfold kHeapStart pgSize; omega) (by omega) hpg s₂ _ _ hmap₂
  have hheld : s₂.held (.pool .kernel) ≠ 0 := by
    change Function.update s.held (.pool .kernel) (s.held (.pool .kernel) + 1) (.pool .kernel) ≠ 0
    rw [Function.update_self]
    exact Nat.succ_ne_zero _
  let held := Function.update s₂.held (.pool .kernel) (s₂.held (.pool .kernel) - 1)
  have hrel := lockRelease_ok (t := { s₂ with mem := mem }) (l := .pool .kernel) hheld
  refine ⟨mem, cr3, held, ?_, hcr3, hsame, ?_⟩
  · unfold getKernelPage lockFetch
    rw [bind_ok (modify_apply _ s), bind_ok hm₂, hlen, if_pos (by unfold kHeapStart; omega),
      bind_ok hrun]
    exact bind_ok hrel
  · exact hmap.congr (by unfold n pgSize at *; omega) (hsame _ (Ne.symm hmap.page.1))
      (hsame _ (Ne.symm hmap.page.2))

theorem getKernelPage_one (hs : Paged s)
    (hf : s.kernelViraddr.vaddrBitmap.findBlock 1 = some pos)
    (hi : (s.pool .kernel).poolBitmap.findBlock 1 = some i) :
    ∃ t, getKernelPage 1 s = .ok (pos * pgSize + kHeapStart, t) ∧ OnePage s t pos i := by
  obtain ⟨mem, cr3, held, hrun, hcr3, -, hmap⟩ := getKernelPage_put hs hf hi
  refine ⟨_, hrun, rfl, rfl, tableOf s ((pos * pgSize + kHeapStart) / pgSize), ?_⟩
  change Mapped _ (cr3 / pgSize) _ _ _
  rw [hcr3]
  exact hmap

theorem getKernelPage_short (hs : Paged s) (h : s.kernelViraddr.vaddrBitmap.findBlock 1 = none ∨
    (s.pool .kernel).poolBitmap.findBlock 1 = none) :
    ∃ b held, Wasted s.kernelViraddr.vaddrBitmap b ∧ getKernelPage 1 s = .ok (0, { s with
      kernelViraddr := { s.kernelViraddr with vaddrBitmap := b }, held := held }) := by
  let s₁ : State := { s with
    held := Function.update s.held (.pool .kernel) (s.held (.pool .kernel) + 1) }
  obtain ⟨b, hb, hm⟩ := mallocPage_short (hs.with_held s₁.held) h
  let s₂ : State := { s₁ with kernelViraddr := { s.kernelViraddr with vaddrBitmap := b } }
  have hheld : s₂.held (.pool .kernel) ≠ 0 := by
    change Function.update s.held (.pool .kernel) (s.held (.pool .kernel) + 1) (.pool .kernel) ≠ 0
    rw [Function.update_self]
    exact Nat.succ_ne_zero _
  refine ⟨b, Function.update s₂.held (.pool .kernel) (s₂.held (.pool .kernel) - 1), hb, ?_⟩
  unfold getKernelPage lockFetch
  rw [bind_ok (modify_apply _ s), bind_ok hm, if_neg (by simp)]
  exact bind_ok (lockRelease_ok hheld)

theorem getKernelPage_none (hs : Paged s) (h : s.kernelViraddr.vaddrBitmap.findBlock 1 = none ∨
    (s.pool .kernel).poolBitmap.findBlock 1 = none) :
    ∃ t, getKernelPage 1 s = .ok (0, t) ∧ t.pool = s.pool := by
  obtain ⟨b, held, -, hrun⟩ := getKernelPage_short hs h
  exact ⟨_, hrun, rfl⟩

theorem freeAddrBitmap_one {b : Bitmap} {start a : Nat} (hlt : pos < b.mapBytesLength * 8)
    (ha : start ≤ a) : freeAddrBitmap b start a pos 1 t = .ok (b.setValue pos false, t) := by
  unfold freeAddrBitmap
  rw [check_bind ha, check_bind (c := pos ≤ b.mapBytesLength * 8) (Nat.le_of_lt hlt)]
  unfold setValues setValues
  rw [bind_ok (pure_apply _ _)]
  unfold setValueBitmap
  rw [Nat.add_zero, check_bind (c := pos < b.mapBytesLength * 8) hlt]
  rfl

theorem virtualAddr_ok {f table : Nat} (hv : v < 2 ^ 32)
    (hself : Leads t.mem (t.cr3 / pgSize * pgSize + 4 * 1023) (t.cr3 / pgSize))
    (h : Maps t.mem (t.cr3 / pgSize) (v / pgSize) table f) :
    virtualAddrToPhysicalAddr v t = .ok (f * pgSize, t) := by
  unfold virtualAddrToPhysicalAddr
  rw [bind_ok (load_pde hself hv), check_bind h.pde.1, bind_ok (load_pte hself hv h.pde),
    check_bind h.pte.1, h.pte.2]
  rfl

theorem removePage_ok {table : Nat} (hv : v < 2 ^ 32)
    (hself : Leads t.mem (t.cr3 / pgSize * pgSize + 4 * 1023) (t.cr3 / pgSize))
    (h : Leads t.mem (t.cr3 / pgSize * pgSize + 4 * (v / pgSize / 1024)) table)
    (hd : t.cr3 / pgSize ≠ table) :
    removePage v t = .ok ((), { t with mem := cleared t.mem table (v / pgSize) }) := by
  unfold removePage
  rw [bind_ok (load_pte hself hv h), store_pte hself hv h hd]
  rfl

/-- The address `pos` and the page `i` are given back. -/
def givePage (s : State) (pos i : Nat) : State :=
  { s with
    kernelViraddr := { s.kernelViraddr with
      vaddrBitmap := s.kernelViraddr.vaddrBitmap.setValue pos false }
    pool := Function.update s.pool .kernel { s.pool .kernel with
      poolBitmap := (s.pool .kernel).poolBitmap.setValue i false } }

/-- The page is given back with its address. -/
theorem mfreePage_give {table : Nat} (hstart : t.kernelViraddr.vaddrStart = kHeapStart)
    (hp : pos < t.kernelViraddr.vaddrBitmap.mapBytesLength * 8)
    (hend : pos * pgSize + kHeapStart + pgSize ≤ 0xffc00000)
    (hmod : (t.pool .kernel).phyAddrStart % pgSize = 0)
    (hi : i < (t.pool .kernel).poolBitmap.mapBytesLength * 8)
    (hmap : Mapped t.mem (t.cr3 / pgSize) ((pos * pgSize + kHeapStart) / pgSize) table
      ((t.pool .kernel).phyAddrStart / pgSize + i)) :
    mfreePage .kernel (pos * pgSize + kHeapStart) 1 t =
      .ok ((), { givePage t pos i with
        mem := cleared t.mem table ((pos * pgSize + kHeapStart) / pgSize) }) := by
  let t₁ : State := { t with kernelViraddr := { t.kernelViraddr with
    vaddrBitmap := t.kernelViraddr.vaddrBitmap.setValue pos false } }
  have hfree : freeVaddress .kernel (pos * pgSize + kHeapStart) 1 t = .ok ((), t₁) := by
    have hpos : u32Sub (pos * pgSize + kHeapStart) kHeapStart / pgSize = pos := by
      rw [Fs.u32Sub_of_le (by omega) (by unfold pgSize at *; omega)]
      unfold pgSize
      omega
    unfold freeVaddress viraddr
    rw [bind_ok (bind_ok (get_apply t))]
    simp only [hstart, hpos]
    rw [bind_ok (freeAddrBitmap_one hp (by omega))]
    unfold setVaddrBitmap viraddr
    rw [bind_ok (bind_ok (get_apply t))]
    rfl
  have hpool : freePage .kernel (((t.pool .kernel).phyAddrStart / pgSize + i) * pgSize) t₁ =
      .ok ((), givePage t pos i) := by
    have hpos : (((t.pool .kernel).phyAddrStart / pgSize + i) * pgSize -
        (t.pool .kernel).phyAddrStart) / pgSize = i := by
      unfold pgSize at *
      omega
    unfold freePage
    rw [bind_ok (get_apply t₁)]
    simp only [t₁, hpos]
    rw [bind_ok (freeAddrBitmap_one hi (by unfold pgSize at *; omega))]
    rfl
  have hrem : removePage (pos * pgSize + kHeapStart) (givePage t pos i) =
      .ok ((), { givePage t pos i with
        mem := cleared t.mem table ((pos * pgSize + kHeapStart) / pgSize) }) :=
    removePage_ok (t := givePage t pos i) (by omega) hmap.self hmap.pde (Ne.symm hmap.table)
  unfold mfreePage
  rw [bind_ok hfree]
  unfold freePages
  rw [bind_ok (virtualAddr_ok (t := t₁) (by omega) hmap.self hmap.toMaps), bind_ok hpool, bind_ok hrem]
  rfl

theorem mfreePage_one (hs : Paged s) (hp : pos < s.kernelViraddr.vaddrBitmap.mapBytesLength * 8)
    (hpc : s.kernelViraddr.vaddrBitmap.getValue pos = false)
    (hi : i < (s.pool .kernel).poolBitmap.mapBytesLength * 8)
    (hic : (s.pool .kernel).poolBitmap.getValue i = false) (h : OnePage s t pos i) :
    ∃ u, mfreePage .kernel (pos * pgSize + kHeapStart) 1 t = .ok ((), u) ∧
      u.kernelViraddr = s.kernelViraddr ∧ u.pool = s.pool := by
  obtain ⟨table, hmap⟩ := h.mapped
  obtain ⟨hk, hmul, hend⟩ := ofKernel hs hp
  have hpool : t.pool .kernel = { s.pool .kernel with
      poolBitmap := (s.pool .kernel).poolBitmap.setValue i true } := by
    rw [h.pool, Function.update_self]
  have hrun := mfreePage_give (t := t) (i := i)
    (by rw [h.addresses]; exact hs.start) (by rw [h.addresses]; exact hp) hend
    (by rw [hpool]; exact hs.pool.1) (by rw [hpool]; exact hi) (by rw [hpool]; exact hmap)
  refine ⟨_, hrun, ?_, ?_⟩
  · simp only [givePage, h.addresses, Bitmap.setValue_undo hpc]
  · simp only [givePage, h.pool, Function.update_self, Function.update_idem,
      Bitmap.setValue_undo hic, Function.update_eq_self]

end OnePage

end Frog.Mm
