import Frog.Mm.TakeBack

/-!
# Pages that the kernel holds

Of the pages that `get_kernel_page` has given, each lies at an address of its own, until `mfree_page`
gives it back.
-/

namespace Frog.Mm

set_option autoImplicit false
open Bytes Prog
open Fs (u32)

/-- The entry of page `n` of the addresses of the kernel. -/
def pteOf (s : State) (n : Nat) : Nat := entry s.mem (tableOf s n) (n % 1024)

/-- `a` is the address at bit `pos` of the kernel's map. -/
def AddressAt (s : State) (pos a : Nat) : Prop :=
  pos < s.kernelViraddr.vaddrBitmap.mapBytesLength * 8 ∧ a = pos * pgSize + kHeapStart

/-- Page `i` of the kernel's pool is in use at the address `a`. -/
structure Held (s : State) (a i : Nat) : Prop where
  address : ∃ pos, AddressAt s pos a ∧ s.kernelViraddr.vaddrBitmap.getValue pos = true
  frame : i < (s.pool .kernel).poolBitmap.mapBytesLength * 8 ∧
    (s.pool .kernel).poolBitmap.getValue i = true
  shown : pteOf s (a / pgSize) % 2 = 1 ∧
    pteOf s (a / pgSize) / pgSize = (s.pool .kernel).phyAddrStart / pgSize + i
  apart : (s.pool .kernel).phyAddrStart / pgSize + i ≠ s.cr3 / pgSize ∧
    ∀ n, OfKernel n → (s.pool .kernel).phyAddrStart / pgSize + i ≠ tableOf s n
  thread : (s.tcb s.cur).pgdir ≠ a

/-- The address `a` is free again and shows no page, and the page that its entry still names is free. -/
structure Returned (s : State) (a : Nat) : Prop where
  address : ∃ pos, AddressAt s pos a ∧ s.kernelViraddr.vaddrBitmap.getValue pos = false
  hidden : pteOf s (a / pgSize) % 2 = 0
  frame : ∃ i, pteOf s (a / pgSize) / pgSize = (s.pool .kernel).phyAddrStart / pgSize + i ∧
    (s.pool .kernel).poolBitmap.getValue i = false

/-- The pairs are addresses with the pages in use there. -/
structure HasPages (s : State) (ps : List (Nat × Nat)) : Prop where
  paged : Paged s
  held : ∀ x ∈ ps, Held s x.1 x.2
  addresses : (ps.map Prod.fst).Nodup
  frames : (ps.map Prod.snd).Nodup

/-! ## States with the same tables -/

structure SameTables (s t : State) : Prop where
  start : t.kernelViraddr.vaddrStart = s.kernelViraddr.vaddrStart
  length : t.kernelViraddr.vaddrBitmap.mapBytesLength = s.kernelViraddr.vaddrBitmap.mapBytesLength
  dir : t.cr3 / pgSize = s.cr3 / pgSize
  page : SamePage (s.cr3 / pgSize) s.mem t.mem
  thread : (t.tcb t.cur).pgdir = (s.tcb s.cur).pgdir
  poolStart : (t.pool .kernel).phyAddrStart = (s.pool .kernel).phyAddrStart
  poolLength : (t.pool .kernel).poolBitmap.mapBytesLength = (s.pool .kernel).poolBitmap.mapBytesLength

section Same
variable {s t : State} {a b i n pos : Nat} {ps : List (Nat × Nat)}

theorem entry_same {mem mem' : Store} {p j : Nat} (h : SamePage p mem mem') (hj : j < 1024) :
    entry mem' p j = entry mem p j := by
  apply le32_congr
  intro k hk
  apply h
  unfold pgSize
  omega

theorem OfKernel.lt (h : OfKernel n) : n / 1024 < 1024 := by
  unfold OfKernel pgSize at h
  omega

theorem AddressAt.ofKernel (hs : Paged s) (h : AddressAt s pos a) : OfKernel (a / pgSize) := by
  rw [h.2]
  exact (Mm.ofKernel hs h.1).1

theorem AddressAt.page_inj {pos' : Nat} (h : AddressAt s pos a) (h' : AddressAt s pos' b)
    (he : a / pgSize = b / pgSize) : pos = pos' := by
  rw [h.2, h'.2] at he
  unfold kHeapStart pgSize at he
  omega

namespace SameTables

theorem tableOf (h : SameTables s t) (hn : OfKernel n) : tableOf t n = tableOf s n := by
  have he : entry t.mem (t.cr3 / pgSize) (n / 1024) = entry s.mem (s.cr3 / pgSize) (n / 1024) := by
    rw [h.dir]
    exact entry_same h.page hn.lt
  exact congrArg (· / pgSize) he

theorem addressAt (h : SameTables s t) : AddressAt t pos a ↔ AddressAt s pos a := by
  unfold AddressAt
  rw [h.length]

theorem paged (h : SameTables s t) (hs : Paged s)
    (hspare : ∀ f, Spare t f → f ≠ s.cr3 / pgSize ∧ ∀ n, OfKernel n → f ≠ Mm.tableOf s n)
    (hkeep : ∀ pos a, AddressAt s pos a → (s.tcb s.cur).pgdir = a →
      s.kernelViraddr.vaddrBitmap.getValue pos = true →
      t.kernelViraddr.vaddrBitmap.getValue pos = true ∧ pteOf t (a / pgSize) = pteOf s (a / pgSize)) :
    Paged t := by
  refine ⟨h.start.trans hs.start, ?_, ?_, ?_, ?_, ?_, ?_, ?_⟩
  · rw [h.length]
    exact hs.top
  · rw [h.dir]
    exact hs.self.congr h.page (by norm_num)
  · intro n hn
    rw [h.dir, h.tableOf hn]
    exact ⟨(hs.tables n hn).1, (hs.tables n hn).2.congr h.page hn.lt⟩
  · intro n m hn hm he
    rw [h.tableOf hn, h.tableOf hm] at he
    exact hs.apart n m hn hm he
  · intro f hf
    obtain ⟨hd, ht⟩ := hspare f hf
    refine ⟨by rw [h.dir]; exact hd, fun n hn => ?_⟩
    rw [h.tableOf hn]
    exact ht n hn
  · rw [h.poolStart, h.poolLength]
    exact hs.pool
  · rw [h.thread, h.dir, h.length]
    rcases hs.thread with h0 | ⟨pos, hset, hlt, hdir, hleads⟩
    · exact .inl h0
    · have hat : AddressAt s pos (s.tcb s.cur).pgdir := ⟨hlt, hdir⟩
      obtain ⟨hset', hpte⟩ := hkeep pos _ hat rfl hset
      refine .inr ⟨pos, hset', hlt, hdir, ?_⟩
      rw [h.tableOf (hat.ofKernel hs)]
      unfold pteOf at hpte
      rw [h.tableOf (hat.ofKernel hs)] at hpte
      exact (leads_entry hpte).mpr hleads

theorem held (h : SameTables s t) (hh : Held s a i)
    (hbit : ∀ pos, AddressAt s pos a → s.kernelViraddr.vaddrBitmap.getValue pos = true →
      t.kernelViraddr.vaddrBitmap.getValue pos = true)
    (hframe : (t.pool .kernel).poolBitmap.getValue i = true)
    (hpte : pteOf t (a / pgSize) = pteOf s (a / pgSize)) : Held t a i := by
  obtain ⟨pos, hat, hset⟩ := hh.address
  refine ⟨⟨pos, h.addressAt.mpr hat, hbit pos hat hset⟩, ⟨?_, hframe⟩, ?_, ?_, ?_⟩
  · rw [h.poolLength]
    exact hh.frame.1
  · rw [hpte, h.poolStart]
    exact hh.shown
  · rw [h.poolStart, h.dir]
    refine ⟨hh.apart.1, fun n hn => ?_⟩
    rw [h.tableOf hn]
    exact hh.apart.2 n hn
  · rw [h.thread]
    exact hh.thread

end SameTables

/-! ## Taking a page -/

theorem pte_ne (hs : Paged s) (hn : OfKernel n) {m : Nat} (hm : OfKernel m) (h : m ≠ n) :
    ¬ (tableOf s m = tableOf s n ∧ m % 1024 = n % 1024) := by
  intro he
  have hdiv := hs.apart m n hm hn he.1
  omega

/-- Nothing but an address was taken. -/
theorem HasPages.waste (h : HasPages s ps) {b : Bitmap} {held : LockName → Nat}
    (hb : Wasted s.kernelViraddr.vaddrBitmap b) :
    HasPages { s with kernelViraddr := { s.kernelViraddr with vaddrBitmap := b }, held := held } ps := by
  have hlen : b.mapBytesLength = s.kernelViraddr.vaddrBitmap.mapBytesLength := by
    rcases hb with rfl | ⟨pos, -, rfl⟩
    · rfl
    · exact Bitmap.setValue_length ..
  have hkeep : ∀ pos, s.kernelViraddr.vaddrBitmap.getValue pos = true → b.getValue pos = true := by
    intro pos hset
    rcases hb with rfl | ⟨pos', -, rfl⟩
    · exact hset
    · rw [Bitmap.getValue_setValue]
      split
      · rfl
      · exact hset
  have hsame : SameTables s
      { s with kernelViraddr := { s.kernelViraddr with vaddrBitmap := b }, held := held } :=
    ⟨rfl, hlen, rfl, fun _ _ => rfl, rfl, rfl, rfl⟩
  refine ⟨hsame.paged h.paged h.paged.spare fun pos a _ _ hset => ⟨hkeep pos hset, rfl⟩, ?_,
    h.addresses, h.frames⟩
  intro x hx
  have hx := h.held x hx
  exact hsame.held hx (fun pos _ => hkeep pos) hx.frame.2 rfl

/-- What changes when the page `i` is taken for the address at bit `pos`. -/
structure Takes (s t : State) (pos i : Nat) : Prop where
  same : SameTables s t
  address : ∀ p, t.kernelViraddr.vaddrBitmap.getValue p =
    if p = pos then true else s.kernelViraddr.vaddrBitmap.getValue p
  frame : ∀ j, (t.pool .kernel).poolBitmap.getValue j =
    if j = i then true else (s.pool .kernel).poolBitmap.getValue j
  entry : ∀ p a, AddressAt s p a → pteOf t (a / pgSize) =
    if p = pos then entryOf (((s.pool .kernel).phyAddrStart / pgSize + i) * pgSize)
    else pteOf s (a / pgSize)

theorem takes (hs : Paged s) {i : Nat} {mem : Store} {cr3 : Nat} {held : LockName → Nat}
    (hat : AddressAt s pos a) (hfree : Spare s ((s.pool .kernel).phyAddrStart / pgSize + i))
    (hlt : ((s.pool .kernel).phyAddrStart / pgSize + i + 1) * pgSize ≤ 2 ^ 32)
    (hcr3 : cr3 / pgSize = s.cr3 / pgSize)
    (hmem : ∀ p, p ≠ (s.pool .kernel).phyAddrStart / pgSize + i → SamePage p
      (withPage s.mem (tableOf s (a / pgSize)) (a / pgSize)
        ((s.pool .kernel).phyAddrStart / pgSize + i)) mem) :
    Takes s { takePage s pos i with mem := mem, cr3 := cr3, held := held } pos i := by
  let t : State := { takePage s pos i with mem := mem, cr3 := cr3, held := held }
  obtain ⟨hfd, hft⟩ := hs.spare _ hfree
  have hk : OfKernel (a / pgSize) := hat.ofKernel hs
  have hpool : t.pool .kernel = { s.pool .kernel with
      poolBitmap := (s.pool .kernel).poolBitmap.setValue i true } := by
    simp [t, takePage]
  have hsame : SameTables s t := by
    refine ⟨rfl, rfl, hcr3, ?_, rfl, by rw [hpool], by rw [hpool]; rfl⟩
    have hput : SamePage s.dir s.mem _ :=
      withPage_dir (f := (s.pool .kernel).phyAddrStart / pgSize + i) (n := a / pgSize)
        (Ne.symm (hs.tables _ hk).1)
    exact fun b hb => (hmem _ (Ne.symm hfd) b hb).trans (hput b hb)
  refine ⟨hsame, fun p => Bitmap.getValue_setValue .., fun j => ?_, fun p b hb => ?_⟩
  · rw [hpool]
    exact Bitmap.getValue_setValue ..
  · have hkb : OfKernel (b / pgSize) := hb.ofKernel hs
    unfold pteOf
    rw [hsame.tableOf hkb]
    change Mm.entry mem (tableOf s (b / pgSize)) (b / pgSize % 1024) = _
    rw [entry_same (hmem _ (Ne.symm (hft _ hkb))) (Nat.mod_lt _ (by norm_num)),
      entry_withPage hlt (Nat.mod_lt _ (by norm_num))]
    by_cases hp : p = pos
    · have hba : b = a := by rw [hb.2, hat.2, hp]
      rw [if_pos hp, hba, if_pos ⟨rfl, rfl⟩]
    · rw [if_neg hp, if_neg (pte_ne hs hk hkb fun he => hp (hb.page_inj hat he))]

/-- What was in use stays as it is, at another address and on another page. -/
theorem Takes.other (ht : Takes s t pos i)
    (hclear : s.kernelViraddr.vaddrBitmap.getValue pos = false) {p : Nat} (hp : AddressAt s p b)
    (hset : s.kernelViraddr.vaddrBitmap.getValue p = true) :
    p ≠ pos ∧ t.kernelViraddr.vaddrBitmap.getValue p = true ∧
      pteOf t (b / pgSize) = pteOf s (b / pgSize) := by
  have hne : p ≠ pos := by
    rintro rfl
    rw [hclear] at hset
    cases hset
  refine ⟨hne, ?_, ?_⟩
  · rw [ht.address, if_neg hne, hset]
  · rw [ht.entry p b hp, if_neg hne]

theorem Takes.spare (ht : Takes s t pos i) {f : Nat} (hf : Spare t f) : Spare s f := by
  obtain ⟨j, hj, hjc, rfl⟩ := hf
  rw [ht.frame] at hjc
  rw [ht.same.poolLength] at hj
  by_cases hji : j = i
  · rw [if_pos hji] at hjc
    cases hjc
  · rw [if_neg hji] at hjc
    exact ⟨j, hj, hjc, by rw [ht.same.poolStart]⟩

/-- The page taken is in use at its address. -/
theorem Takes.held (ht : Takes s t pos i) (hs : Paged s) (hat : AddressAt s pos a)
    (hclear : s.kernelViraddr.vaddrBitmap.getValue pos = false)
    (hi : i < (s.pool .kernel).poolBitmap.mapBytesLength * 8)
    (hfree : Spare s ((s.pool .kernel).phyAddrStart / pgSize + i)) : Held t a i := by
  have hpte := ht.entry pos a hat
  rw [if_pos rfl] at hpte
  obtain ⟨hfd, hft⟩ := hs.spare _ hfree
  refine ⟨⟨pos, ht.same.addressAt.mpr hat, ?_⟩, ⟨?_, ?_⟩, ?_, ⟨?_, ?_⟩, ?_⟩
  · rw [ht.address, if_pos rfl]
  · rw [ht.same.poolLength]
    exact hi
  · rw [ht.frame, if_pos rfl]
  · rw [hpte, ht.same.poolStart]
    exact entryOf_leads _
  · rw [ht.same.poolStart, ht.same.dir]
    exact hfd
  · intro m hm
    rw [ht.same.poolStart, ht.same.tableOf hm]
    exact hft m hm
  · rw [ht.same.thread]
    rcases hs.thread with h0 | ⟨p, hset, hp, hdir, -⟩
    · rw [h0.1, hat.2]
      unfold kHeapStart
      omega
    · intro he
      obtain ⟨hne, -⟩ := ht.other hclear ⟨hp, hdir⟩ hset
      have hat' : AddressAt s p a := ⟨hp, he.symm.trans hdir⟩
      exact hne (hat'.page_inj hat rfl)

theorem HasPages.take (h : HasPages s ps) (ht : Takes s t pos i) (hat : AddressAt s pos a)
    (hclear : s.kernelViraddr.vaddrBitmap.getValue pos = false)
    (hi : i < (s.pool .kernel).poolBitmap.mapBytesLength * 8)
    (hiclear : (s.pool .kernel).poolBitmap.getValue i = false) : HasPages t ((a, i) :: ps) := by
  have hother : ∀ x ∈ ps, x.1 ≠ a ∧ x.2 ≠ i ∧ Held t x.1 x.2 := by
    intro x hx
    have hx := h.held x hx
    obtain ⟨p, hp, hset⟩ := hx.address
    obtain ⟨hne, -, hpte⟩ := ht.other hclear hp hset
    have hxi : x.2 ≠ i := by
      intro he
      rw [← he, hx.frame.2] at hiclear
      cases hiclear
    refine ⟨?_, hxi, ht.same.held hx (fun p' hp' hset' => (ht.other hclear hp' hset').2.1) ?_ hpte⟩
    · intro he
      rw [he] at hp
      exact hne (hp.page_inj hat rfl)
    · rw [ht.frame, if_neg hxi]
      exact hx.frame.2
  refine ⟨?_, ?_, ?_, ?_⟩
  · apply ht.same.paged h.paged
    · exact fun f hf => h.paged.spare f (ht.spare hf)
    · exact fun p b hp _ hset => (ht.other hclear hp hset).2
  · intro x hx
    rcases List.mem_cons.mp hx with rfl | hx
    · exact ht.held h.paged hat hclear hi ⟨i, hi, hiclear, rfl⟩
    · exact (hother x hx).2.2
  · refine List.nodup_cons.mpr ⟨fun hm => ?_, h.addresses⟩
    obtain ⟨x, hx, he⟩ := List.mem_map.mp hm
    exact (hother x hx).1 he
  · refine List.nodup_cons.mpr ⟨fun hm => ?_, h.frames⟩
    obtain ⟨x, hx, he⟩ := List.mem_map.mp hm
    exact (hother x hx).2.1 he

/-- A page is got at a new address, or none and no page is lost. -/
theorem HasPages.getKernelPage (h : HasPages s ps) :
    (∃ t, Mm.getKernelPage 1 s = .ok (0, t) ∧ HasPages t ps) ∨
      ∃ a i t, a ≠ 0 ∧ Mm.getKernelPage 1 s = .ok (a, t) ∧ HasPages t ((a, i) :: ps) := by
  cases hf : s.kernelViraddr.vaddrBitmap.findBlock 1 with
  | none =>
    obtain ⟨b, held, hb, hrun⟩ := getKernelPage_short h.paged (.inl hf)
    exact .inl ⟨_, hrun, h.waste hb⟩
  | some pos =>
    cases hi : (s.pool .kernel).poolBitmap.findBlock 1 with
    | none =>
      obtain ⟨b, held, hb, hrun⟩ := getKernelPage_short h.paged (.inr hi)
      exact .inl ⟨_, hrun, h.waste hb⟩
    | some i =>
      obtain ⟨mem, cr3, held, hrun, hcr3, hsame, -⟩ := getKernelPage_put h.paged hf hi
      obtain ⟨hlt, hclear, -⟩ := Bitmap.findBlock_one hf
      obtain ⟨hilt, hiclear, -⟩ := Bitmap.findBlock_one hi
      have hat : AddressAt s pos (pos * pgSize + kHeapStart) := ⟨hlt, rfl⟩
      obtain ⟨hmod, -, htop⟩ := h.paged.pool
      have hfit : ((s.pool .kernel).phyAddrStart / pgSize + i + 1) * pgSize ≤ 2 ^ 32 := by
        unfold pgSize at *
        omega
      refine .inr ⟨_, i, _, ?_, hrun, h.take (takes h.paged hat ⟨i, hilt, hiclear, rfl⟩ hfit hcr3 hsame)
        hat hclear hilt hiclear⟩
      unfold kHeapStart
      omega

/-! ## Giving a page back -/

/-- What changes when the page `i` at bit `pos` is given back. -/
structure Gives (s t : State) (pos i : Nat) : Prop where
  same : SameTables s t
  address : ∀ p, t.kernelViraddr.vaddrBitmap.getValue p =
    if p = pos then false else s.kernelViraddr.vaddrBitmap.getValue p
  frame : ∀ j, (t.pool .kernel).poolBitmap.getValue j =
    if j = i then false else (s.pool .kernel).poolBitmap.getValue j
  entry : ∀ p a, AddressAt s p a → pteOf t (a / pgSize) =
    if p = pos then pteOf s (a / pgSize) &&& 0xfffffffe else pteOf s (a / pgSize)

theorem gives (hs : Paged s) {i : Nat} (hat : AddressAt s pos a) :
    Gives s { givePage s pos i with mem := cleared s.mem (tableOf s (a / pgSize)) (a / pgSize) }
      pos i := by
  let t : State := { givePage s pos i with
    mem := cleared s.mem (tableOf s (a / pgSize)) (a / pgSize) }
  have hk : OfKernel (a / pgSize) := hat.ofKernel hs
  have hpool : t.pool .kernel = { s.pool .kernel with
      poolBitmap := (s.pool .kernel).poolBitmap.setValue i false } := by
    simp [t, givePage]
  have hsame : SameTables s t := by
    refine ⟨rfl, rfl, rfl, ?_, rfl, by rw [hpool], by rw [hpool]; rfl⟩
    exact samePage_patch (Ne.symm (hs.tables _ hk).1) (by unfold pgSize; omega)
  refine ⟨hsame, fun p => Bitmap.getValue_setValue .., fun j => ?_, fun p b hb => ?_⟩
  · rw [hpool]
    exact Bitmap.getValue_setValue ..
  · have hkb : OfKernel (b / pgSize) := hb.ofKernel hs
    unfold pteOf
    rw [hsame.tableOf hkb]
    change Mm.entry (cleared s.mem (tableOf s (a / pgSize)) (a / pgSize)) _ _ = _
    rw [entry_cleared (Nat.mod_lt _ (by norm_num))]
    by_cases hp : p = pos
    · have hab : b = a := by rw [hb.2, hat.2, hp]
      rw [if_pos hp, hab, if_pos ⟨rfl, rfl⟩]
    · rw [if_neg hp, if_neg (pte_ne hs hk hkb fun he => hp (hb.page_inj hat he))]

theorem HasPages.give {x : Nat × Nat} (h : HasPages s (x :: ps)) (hat : AddressAt s pos x.1)
    (hg : Gives s t pos x.2) : HasPages t ps := by
  obtain ⟨hsame, haddress, hframe, hentry⟩ := hg
  have hx := h.held x (by simp)
  have hother : ∀ p a, AddressAt s p a → a ≠ x.1 →
      (s.kernelViraddr.vaddrBitmap.getValue p = true →
        t.kernelViraddr.vaddrBitmap.getValue p = true) ∧
        pteOf t (a / pgSize) = pteOf s (a / pgSize) := by
    intro p a hp ha
    have hne : p ≠ pos := by
      rintro rfl
      exact ha (hp.2.trans hat.2.symm)
    rw [haddress, hentry p a hp, if_neg hne, if_neg hne]
    exact ⟨id, rfl⟩
  obtain ⟨hxa, hpa⟩ := List.nodup_cons.mp h.addresses
  obtain ⟨hxf, hpf⟩ := List.nodup_cons.mp h.frames
  refine ⟨hsame.paged h.paged ?_ ?_, ?_, hpa, hpf⟩
  · intro f hf
    obtain ⟨j, hj, hjc, rfl⟩ := hf
    rw [hframe] at hjc
    rw [hsame.poolLength] at hj
    rw [hsame.poolStart]
    by_cases hji : j = x.2
    · rw [hji]
      exact hx.apart
    · rw [if_neg hji] at hjc
      exact h.paged.spare _ ⟨j, hj, hjc, rfl⟩
  · intro p a hp hdir hset
    obtain ⟨hset', hpte⟩ := hother p a hp (hdir ▸ hx.thread)
    exact ⟨hset' hset, hpte⟩
  · intro y hy
    have hya : y.1 ≠ x.1 := fun he => hxa (List.mem_map.mpr ⟨y, hy, he⟩)
    have hyf : y.2 ≠ x.2 := fun he => hxf (List.mem_map.mpr ⟨y, hy, he⟩)
    have hy := h.held y (by simp [hy])
    obtain ⟨p, hp, -⟩ := hy.address
    refine hsame.held hy (fun p' hp' => (hother p' _ hp' hya).1) ?_ (hother p _ hp hya).2
    rw [hframe, if_neg hyf]
    exact hy.frame.2

/-- The page that an entry names does not depend on its lowest bits. -/
theorem and_page {w : Nat} (hw : w < 2 ^ 32) : (w &&& 0xfffffffe) / pgSize = w / pgSize := by
  have hshift : ∀ v, v / pgSize = v >>> 12 := fun v => (Nat.shiftRight_eq_div_pow v 12).symm
  rw [hshift, hshift, Nat.shiftRight_and_distrib]
  apply Nat.and_two_pow_sub_one_of_lt_two_pow (n := 20)
  rw [Nat.shiftRight_eq_div_pow]
  omega

theorem Held.returned {i : Nat} (hx : Held s a i) (hat : AddressAt s pos a)
    (hg : Gives s t pos i) : Returned t a := by
  have hpte := hg.entry pos a hat
  rw [if_pos rfl] at hpte
  refine ⟨⟨pos, hg.same.addressAt.mpr hat, by rw [hg.address, if_pos rfl]⟩, ?_, i, ?_, ?_⟩
  · rw [hpte]
    exact and_even _
  · have hlt : pteOf s (a / pgSize) < 2 ^ 32 := le32_lt ..
    rw [hpte, and_page hlt, hg.same.poolStart]
    exact hx.shown.2
  · rw [hg.frame, if_pos rfl]

/-- What was returned before stays so. -/
theorem Returned.keep {i : Nat} (hb : Returned s b)
    (hset : s.kernelViraddr.vaddrBitmap.getValue pos = true) (hg : Gives s t pos i) :
    Returned t b := by
  obtain ⟨⟨p, hp, hclear⟩, hhidden, j, hj, hjc⟩ := hb
  have hne : p ≠ pos := by
    rintro rfl
    rw [hset] at hclear
    cases hclear
  have hpte := hg.entry p b hp
  rw [if_neg hne] at hpte
  refine ⟨⟨p, hg.same.addressAt.mpr hp, ?_⟩, by rw [hpte, hhidden], j, ?_, ?_⟩
  · rw [hg.address, if_neg hne, hclear]
  · rw [hpte, hj, hg.same.poolStart]
  · rw [hg.frame, hjc, ite_self]

/-- A page is given back, and the others stay as they are. -/
theorem HasPages.mfreePage {i : Nat} (h : HasPages s ((a, i) :: ps)) :
    ∃ t, Mm.mfreePage .kernel a 1 s = .ok ((), t) ∧ HasPages t ps ∧ Returned t a ∧
      ∀ b, Returned s b → Returned t b := by
  have hx : Held s a i := h.held (a, i) (by simp)
  obtain ⟨pos, hat, hset⟩ := hx.address
  obtain ⟨hk, hmul, hend⟩ := ofKernel h.paged hat.1
  obtain ⟨htd, hleads⟩ := h.paged.tables _ (hat.ofKernel h.paged)
  have hgives := gives (i := i) h.paged hat
  have hrun : Mm.mfreePage .kernel a 1 s = .ok ((), { givePage s pos i with
      mem := cleared s.mem (tableOf s (a / pgSize)) (a / pgSize) }) := by
    have hshown := hx.shown
    have hapart := hx.apart
    rw [hat.2] at hshown htd hleads ⊢
    exact mfreePage_give h.paged.start hat.1 hend h.paged.pool.1 hx.frame.1
      ⟨⟨hleads, hshown⟩, h.paged.self, htd, hapart.1, hapart.2 _ hk⟩
  exact ⟨_, hrun, h.give hat hgives, hx.returned hat hgives, fun b hb => hb.keep hset hgives⟩

end Same

end Frog.Mm
