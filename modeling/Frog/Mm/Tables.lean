import Frog.Mm.KernelPage
import Frog.Mm.PoolInit

/-!
# Tables and the pages of the pools

The entries of the page tables as numbers, what is stored in them, and the pages that the pools hand out.
-/

namespace Frog.Mm

set_option autoImplicit false
open Bytes Prog
open Fs (u32 u32Sub)

/-- The number of the page of the directory in use. -/
abbrev State.dir (s : State) : Nat := s.cr3 / pgSize

/-- Entry `k` of the directory leads to table `f`. -/
abbrev HasTable (mem : Store) (d k f : Nat) : Prop := Leads mem (d * pgSize + 4 * k) f

/-- Page `m` of the addresses shows page `f` of memory. -/
def Shows (mem : Store) (d m f : Nat) : Prop := ∃ table, Maps mem d m table f

/-- Page `f` of memory belongs to bit `i` of a pool. -/
def FrameOf (s : State) (p : PoolType) (i f : Nat) : Prop :=
  i < (s.pool p).poolBitmap.mapBytesLength * 8 ∧ f = (s.pool p).phyAddrStart / pgSize + i

def Free (s : State) (p : PoolType) (f : Nat) : Prop :=
  ∃ i, FrameOf s p i f ∧ (s.pool p).poolBitmap.getValue i = false

def HandedOut (s : State) (f : Nat) : Prop :=
  ∃ p i, FrameOf s p i f ∧ (s.pool p).poolBitmap.getValue i = true

/-- The pages below the tables; the addresses behind them are those of the tables themselves. -/
def Below (n : Nat) : Prop := n < 0xffc00

/-- How the kernel runs: the directory is its own last table, no other table is the directory, and the
free pages of the pools are neither tables nor mapped. -/
structure Tabled (s : State) : Prop where
  self : HasTable s.mem s.dir 1023 s.dir
  dir : s.dir ≠ 0
  tables : ∀ k f, k < 1023 → HasTable s.mem s.dir k f → f ≠ s.dir
  free : ∀ p f, Free s p f → f ≠ s.dir ∧ (∀ k, k < 1023 → ¬ HasTable s.mem s.dir k f) ∧
    ∀ m, Below m → ¬ Shows s.mem s.dir m f
  pools : ∀ p, (s.pool p).phyAddrStart % pgSize = 0 ∧ 0 < (s.pool p).phyAddrStart ∧
    (s.pool p).phyAddrStart + (s.pool p).poolBitmap.mapBytesLength * 8 * pgSize ≤ 2 ^ 32
  apart : ∀ i j f, FrameOf s .kernel i f → ¬ FrameOf s .user j f

/-- The directory to load has a table for its address. -/
def Reached (s : State) (pgdir : Nat) : Prop :=
  pgdir = 0 ∨ pgdir < 2 ^ 32 ∧ ∃ f, HasTable s.mem s.dir (pgdir / pgSize / 1024) f

/-! ## Entries -/

section Entries
variable {mem : Store} {p p' j j' w f : Nat}

theorem entry_store (hj : j < 1024) (hj' : j' < 1024) (hw : w < 2 ^ 32) :
    entry (patch mem (p * pgSize + 4 * j) 4 (leByte w)) p' j' =
      if p' = p ∧ j' = j then w else entry mem p' j' := by
  unfold entry
  by_cases h : p' = p ∧ j' = j
  · rw [if_pos h, h.1, h.2]
    apply le32_of_bytes_lt hw
    intro k hk
    rw [patch_in ⟨by omega, by omega⟩]
    exact congrArg _ (by omega)
  · rw [if_neg h]
    apply le32_congr
    intro k hk
    apply patch_out
    unfold pgSize
    omega

theorem entry_clear (hj' : j' < 1024) :
    entry (patch mem (p * pgSize) pgSize fun _ => 0) p' j' =
      if p' = p then 0 else entry mem p' j' := by
  unfold entry
  by_cases h : p' = p
  · rw [if_pos h, h]
    apply le32_zero
    intro k hk
    apply patch_in
    unfold pgSize
    omega
  · rw [if_neg h]
    apply le32_congr
    intro k hk
    apply patch_out
    unfold pgSize
    omega

theorem entryOf_lt (h : (f + 1) * pgSize ≤ 2 ^ 32) : entryOf (f * pgSize) < 2 ^ 32 := by
  rw [entryOf_eq]
  unfold pgSize at *
  omega

/-- The entry that was stored leads to its page. -/
theorem entryOf_leads (f : Nat) : entryOf (f * pgSize) % 2 = 1 ∧ entryOf (f * pgSize) / pgSize = f := by
  rw [entryOf_eq]
  unfold pgSize
  omega

end Entries

/-! ## Stores into the directory -/

section Directory
variable {s : State} {v w len : Nat}

/-- Bytes are stored into the directory for as long as its last entry leads to it. -/
theorem storeBytes_self {src : Store} (hv : v / pgSize = 0xfffff) (ho : v % pgSize + len ≤ pgSize)
    (hself : ∀ k, k < len →
      HasTable (patch s.mem (s.dir * pgSize + v % pgSize) k src) s.dir 1023 s.dir) :
    storeBytes v src len s =
      .ok ((), { s with mem := patch s.mem (s.dir * pgSize + v % pgSize) len src }) := by
  induction len with
  | zero =>
    rw [patch_zero]
    rfl
  | succ len ih =>
    have hpage : (v + len) / pgSize = 0xfffff := by
      unfold pgSize at *
      omega
    have hoff : (v + len) % pgSize = v % pgSize + len := by
      unfold pgSize at *
      omega
    have hlt : v + len < 2 ^ 32 := by
      unfold pgSize at *
      omega
    have htr := translate_eq (v := v + len)
      (hpage.symm ▸ maps_directory (hself len (Nat.lt_succ_self len))) rfl
    rw [hoff, ← Nat.add_assoc] at htr
    unfold storeBytes
    rw [bind_ok (ih (by omega) fun k hk => hself k (by omega))]
    unfold storeByte
    rw [bind_ok (get_apply _), Fs.u32_of_lt hlt]
    simp only [htr]
    rw [patch_succ]
    rfl

/-- An entry but the last is stored. -/
theorem store_dir {j : Nat} (hself : HasTable s.mem s.dir 1023 s.dir) (hv : v / pgSize = 0xfffff)
    (ho : v % pgSize = 4 * j) (hj : j < 1023) :
    store32 v w s =
      .ok ((), { s with mem := patch s.mem (s.dir * pgSize + 4 * j) 4 (leByte w) }) := by
  have hr : storeBytes v (leByte w) 4 s = _ := storeBytes_self hv
    (by rw [ho]; unfold pgSize; omega) (by
      intro k hk
      have he : le32 (patch s.mem (s.dir * pgSize + v % pgSize) k (leByte w))
          (s.dir * pgSize + 4 * 1023) = le32 s.mem (s.dir * pgSize + 4 * 1023) := by
        apply le32_congr
        intro i _
        apply patch_out
        omega
      unfold HasTable Leads
      rw [he]
      exact hself)
  rw [ho] at hr
  exact hr

theorem store_pde (hself : HasTable s.mem s.dir 1023 s.dir) (hv : Below (v / pgSize)) :
    store32 (pdePtr v) w s = .ok ((), { s with
      mem := patch s.mem (s.dir * pgSize + 4 * (v / pgSize / 1024)) 4 (leByte w) }) := by
  have hpage : pdePtr v / pgSize = 0xfffff := by
    unfold Below pdePtr pgSize at *
    omega
  have hoff : pdePtr v % pgSize = 4 * (v / pgSize / 1024) := by
    unfold Below pdePtr pgSize at *
    omega
  exact store_dir hself hpage hoff (by unfold Below at hv; omega)

end Directory

/-! ## Loading a directory again -/

/-- Loads change nothing. -/
theorem loadBytes_same (a n : Nat) : Within (SamePart (id : State → State)) (loadBytes a n) := by
  induction n with
  | zero => exact within_pure _
  | succ n ih =>
    have hbyte : Within (SamePart (id : State → State)) (loadByte (a + n)) :=
      within_get.bind fun s => (within_need _ _).bind fun p => within_pure _
    exact ih.bind fun front => hbyte.bind fun b => within_pure _

theorem load32_same {a r : Nat} {u u' : State} (h : load32 a u = .ok (r, u')) : u' = u :=
  ((loadBytes_same a 4).bind fun b => within_pure (le32 b 0)) u r u' h

/-- What `invalidate` and `flush_cr3` do: they touch neither memory nor the pools, and they return
while the tables are in place. -/
structure Reloads (s : State) (flush : M Unit) : Prop where
  keeps : ∀ u u', flush u = .ok ((), u') → u'.mem = u.mem ∧ u'.pool = u.pool
  runs : ∀ mem, HasTable mem s.dir 1023 s.dir →
    (∀ k f, k < 1024 → HasTable s.mem s.dir k f → ∃ f', HasTable mem s.dir k f') →
    ∃ cr3, flush { s with mem := mem } = .ok ((), { s with mem := mem, cr3 := cr3 })

theorem flushCr3_keeps {pgdir : Nat} {u u' : State} (h : flushCr3 pgdir u = .ok ((), u')) :
    u'.mem = u.mem ∧ u'.pool = u.pool := by
  unfold flushCr3 at h
  by_cases h0 : pgdir = 0
  · rw [if_pos h0] at h
    cases h
    exact ⟨rfl, rfl⟩
  · rw [if_neg h0] at h
    obtain ⟨a, u₁, ha, h⟩ := bind_eq_ok.mp h
    cases h
    obtain ⟨b, u₂, hb, ha⟩ := bind_eq_ok.mp ha
    cases ha
    cases load32_same hb
    exact ⟨rfl, rfl⟩

theorem flushCr3_reloads {s : State} {pgdir : Nat} (h : Reached s pgdir) :
    Reloads s (flushCr3 pgdir) := by
  refine ⟨fun u u' => flushCr3_keeps, ?_⟩
  intro mem hself hkeep
  unfold flushCr3
  by_cases h0 : pgdir = 0
  · rw [if_pos h0]
    exact ⟨_, rfl⟩
  · obtain ⟨hlt, f, hf⟩ := h.resolve_left h0
    obtain ⟨f', hf'⟩ := hkeep _ f (by unfold pgSize; omega) hf
    have hl := load_pte (s := { s with mem := mem }) hself hlt hf'
    obtain ⟨a, ha⟩ : ∃ a, addrV2p pgdir { s with mem := mem } = .ok (a, { s with mem := mem }) := by
      unfold addrV2p
      rw [bind_ok hl]
      exact ⟨_, rfl⟩
    refine ⟨a, ?_⟩
    rw [if_neg h0, bind_ok ha]
    rfl

theorem invalidate_reloads {s : State} (h : Reached s (s.tcb s.cur).pgdir) :
    Reloads s invalidate :=
  ⟨fun _ _ => flushCr3_keeps, fun mem => (flushCr3_reloads h).runs mem⟩

/-! ## What is stored -/

section Stores
variable {s s' : State} {flush : M Unit} {v f table F : Nat}

/-- The memory with a cleared table for page `n`, entered in the directory. -/
def withTable (mem : Store) (d n F : Nat) : Store :=
  patch (patch mem (d * pgSize + 4 * (n / 1024)) 4 (leByte (entryOf (F * pgSize))))
    (F * pgSize) pgSize fun _ => 0

theorem entry_withPage {mem : Store} {n p j : Nat} (hf : (f + 1) * pgSize ≤ 2 ^ 32) (hj : j < 1024) :
    entry (withPage mem table n f) p j =
      if p = table ∧ j = n % 1024 then entryOf (f * pgSize) else entry mem p j :=
  entry_store (Nat.mod_lt _ (by norm_num)) hj (entryOf_lt hf)

theorem entry_withTable {mem : Store} {d n p j : Nat} (hF : (F + 1) * pgSize ≤ 2 ^ 32)
    (hn : n < 2 ^ 20) (hj : j < 1024) :
    entry (withTable mem d n F) p j = if p = F then 0
      else if p = d ∧ j = n / 1024 then entryOf (F * pgSize) else entry mem p j := by
  unfold withTable
  rw [entry_clear hj, entry_store (by omega) hj (entryOf_lt hF)]

/-- The page is entered in the table that is there. -/
theorem putEntry_table (hs : Tabled s) (hv : v < 2 ^ 32) (hn : Below (v / pgSize))
    (ht : HasTable s.mem s.dir (v / pgSize / 1024) table) :
    putEntry flush v (f * pgSize) s =
      flush { s with mem := withPage s.mem table (v / pgSize) f } := by
  have hd : s.dir ≠ table := Ne.symm (hs.tables _ _ (by unfold Below at hn; omega) ht)
  unfold putEntry
  rw [bind_ok (load_pde hs.self hv), if_pos ht.1, bind_ok (load_pte hs.self hv ht),
    bind_ok (store_pte hs.self hv ht hd)]
  rfl

theorem withPage_dir {n : Nat} {mem : Store} {d : Nat} (hd : d ≠ table) :
    SamePage d mem (withPage mem table n f) :=
  samePage_patch hd (by unfold pgSize; omega)

theorem putEntry_old (hs : Tabled s) (hflush : Reloads s flush) (hv : v < 2 ^ 32)
    (hn : Below (v / pgSize)) (ht : HasTable s.mem s.dir (v / pgSize / 1024) table) :
    ∃ cr3, putEntry flush v (f * pgSize) s =
      .ok ((), { s with mem := withPage s.mem table (v / pgSize) f, cr3 := cr3 }) := by
  have hd : s.dir ≠ table := Ne.symm (hs.tables _ _ (by unfold Below at hn; omega) ht)
  rw [putEntry_table hs hv hn ht]
  exact hflush.runs _ (hs.self.congr (withPage_dir hd) (by norm_num))
    fun k f' hk' h' => ⟨f', h'.congr (withPage_dir hd) hk'⟩

/-- A whole page is cleared. -/
theorem clear_ok {q t len : Nat} (hlen : len = pgSize) (hq : q < 2 ^ 20)
    (h : Maps s.mem (s.cr3 / pgSize) q t f) (hd : s.cr3 / pgSize ≠ f) (ht : t ≠ f) :
    clear (q * pgSize) len s =
      .ok ((), { s with mem := patch s.mem (f * pgSize) len fun _ => 0 }) := by
  have hpage : q * pgSize / pgSize = q := Nat.mul_div_cancel q (by norm_num [pgSize])
  have hoff : q * pgSize % pgSize = 0 := Nat.mul_mod_left q pgSize
  have hr : storeBytes (q * pgSize) (fun _ => 0) len s = _ :=
    storeBytes_ok (hpage.symm ▸ h) hd ht (by omega) (by unfold pgSize at *; omega)
  rw [hoff, Nat.add_zero] at hr
  exact hr

/-- The page for the table is that of the pool, or page zero. -/
theorem putEntry_new {pool : PoolType → Pool} (hs : Tabled s) (hv : v < 2 ^ 32)
    (hn : Below (v / pgSize)) (ht : ∀ table, ¬ HasTable s.mem s.dir (v / pgSize / 1024) table)
    (hg : getFreePage .kernel s = .ok (F * pgSize, { s with pool := pool }))
    (hF : (F + 1) * pgSize ≤ 2 ^ 32) (hd : s.dir ≠ F) :
    putEntry flush v (f * pgSize) s = .ok ((), { s with
      pool := pool, mem := withPage (withTable s.mem s.dir (v / pgSize) F) F (v / pgSize) f }) := by
  have hk : v / pgSize < 2 ^ 20 := by
    unfold pgSize
    omega
  have hno : ¬ le32 s.mem (s.cr3 / pgSize * pgSize + 4 * (v / pgSize / 1024)) % 2 = 1 :=
    fun h => ht _ ⟨h, rfl⟩
  let s' : State := { s with pool := pool }
  let mem₁ := patch s.mem (s.dir * pgSize + 4 * (v / pgSize / 1024)) 4 (leByte (entryOf (F * pgSize)))
  let mem₂ := patch mem₁ (F * pgSize) pgSize fun _ => 0
  have hent₁ : ∀ j, j < 1024 → entry mem₁ s.dir j =
      if s.dir = s.dir ∧ j = v / pgSize / 1024 then entryOf (F * pgSize) else entry s.mem s.dir j :=
    fun j hj => entry_store (by omega) hj (entryOf_lt hF)
  have hk₁ : HasTable mem₁ s.dir (v / pgSize / 1024) F := by
    change entry mem₁ _ _ % 2 = 1 ∧ entry mem₁ _ _ / pgSize = F
    rw [hent₁ _ (by omega), if_pos ⟨rfl, rfl⟩]
    exact entryOf_leads F
  have hself₁ : HasTable mem₁ s.dir 1023 s.dir := by
    change entry mem₁ _ _ % 2 = 1 ∧ entry mem₁ _ _ / pgSize = s.dir
    rw [hent₁ _ (by norm_num), if_neg (by unfold Below at hn; omega)]
    exact hs.self
  have hsame : SamePage s.dir mem₁ mem₂ := by
    intro a ha
    apply patch_out
    unfold pgSize at *
    omega
  have hself₂ := hself₁.congr hsame (by norm_num)
  have hk₂ := hk₁.congr hsame (by omega)
  have hmap := maps_table hself₁ (n := v / pgSize) hk hk₁
  rw [← ptePtr_page] at hmap
  let s₁ : State := { s' with mem := mem₁ }
  let s₂ : State := { s' with mem := mem₂ }
  have hstore : store32 (pdePtr v) (entryOf (F * pgSize)) s' = .ok ((), s₁) :=
    store_pde (s := s') hs.self hn
  have hclear : clear (ptePtr v / pgSize * pgSize) pgSize s₁ = .ok ((), s₂) :=
    clear_ok (s := s₁) rfl (by rw [ptePtr_page]; omega) hmap hd hd
  have hload : load32 (ptePtr v) s₂ = .ok (entry mem₂ F (v / pgSize % 1024), s₂) :=
    load_pte (s := s₂) hself₂ hv hk₂
  have hput := store_pte (s := s₂) (w := entryOf (f * pgSize)) hself₂ hv hk₂ hd
  have hzero : entry mem₂ F (v / pgSize % 1024) = 0 := by
    rw [entry_clear (Nat.mod_lt _ (by norm_num)), if_pos rfl]
  unfold putEntry withPage withTable
  rw [bind_ok (load_pde hs.self hv), if_neg hno, bind_ok hg, bind_ok hstore, bind_ok hclear,
    bind_ok hload]
  rw [hzero, check_bind rfl]
  exact hput

end Stores

/-! ## A page of a pool is taken -/

section Taken
variable {s : State} {p q : PoolType} {i F g : Nat}

theorem setFrame_pool (v : Bool) : (s.setFrame p i v).pool q =
    if q = p then { s.pool p with poolBitmap := (s.pool p).poolBitmap.setValue i v } else s.pool q := by
  unfold State.setFrame
  by_cases h : q = p
  · rw [if_pos h, h]
    exact Function.update_self ..
  · rw [if_neg h]
    exact Function.update_of_ne h ..

theorem frameOf_setFrame {v : Bool} {j : Nat} : FrameOf (s.setFrame p i v) q j g ↔ FrameOf s q j g := by
  unfold FrameOf
  rw [setFrame_pool]
  by_cases h : q = p
  · rw [if_pos h, h]
    rfl
  · rw [if_neg h]

theorem getValue_setFrame {j : Nat} : ((s.setFrame p i true).pool q).poolBitmap.getValue j =
    if q = p ∧ j = i then true else (s.pool q).poolBitmap.getValue j := by
  rw [setFrame_pool]
  by_cases h : q = p
  · simp only [h, if_true, true_and]
    exact Bitmap.getValue_setValue ..
  · rw [if_neg h, if_neg fun hc => h hc.1]

/-- Every other page that was free is free. -/
theorem free_setFrame (hF : FrameOf s p i F) :
    Free (s.setFrame p i true) q g ↔ Free s q g ∧ ¬ (q = p ∧ g = F) := by
  unfold Free
  constructor
  · rintro ⟨j, hj, hclear⟩
    rw [frameOf_setFrame] at hj
    rw [getValue_setFrame] at hclear
    by_cases h : q = p ∧ j = i
    · rw [if_pos h] at hclear
      cases hclear
    · rw [if_neg h] at hclear
      refine ⟨⟨j, hj, hclear⟩, ?_⟩
      rintro ⟨rfl, rfl⟩
      have h₁ := hj.2
      have h₂ := hF.2
      exact h ⟨rfl, by omega⟩
  · rintro ⟨⟨j, hj, hclear⟩, hne⟩
    refine ⟨j, frameOf_setFrame.mpr hj, ?_⟩
    rw [getValue_setFrame, if_neg]
    · exact hclear
    · rintro ⟨rfl, rfl⟩
      exact hne ⟨rfl, hj.2.trans hF.2.symm⟩

theorem handedOut_setFrame (hF : FrameOf s p i F) :
    HandedOut (s.setFrame p i true) g ↔ g = F ∨ HandedOut s g := by
  unfold HandedOut
  constructor
  · rintro ⟨q, j, hj, hset⟩
    rw [frameOf_setFrame] at hj
    rw [getValue_setFrame] at hset
    by_cases h : q = p ∧ j = i
    · obtain ⟨rfl, rfl⟩ := h
      exact .inl (hj.2.trans hF.2.symm)
    · rw [if_neg h] at hset
      exact .inr ⟨q, j, hj, hset⟩
  · rintro (rfl | ⟨q, j, hj, hset⟩)
    · refine ⟨p, i, frameOf_setFrame.mpr hF, ?_⟩
      rw [getValue_setFrame, if_pos ⟨rfl, rfl⟩]
    · refine ⟨q, j, frameOf_setFrame.mpr hj, ?_⟩
      rw [getValue_setFrame, hset, ite_self]

/-- The first page that is free is taken. -/
theorem getFreePage_first (hs : Tabled s) (hf : (s.pool p).poolBitmap.findBlock 1 = some i) :
    ∃ F, FrameOf s p i F ∧ Free s p F ∧ F ≠ 0 ∧ (F + 1) * pgSize ≤ 2 ^ 32 ∧
      getFreePage p s = .ok (F * pgSize, s.setFrame p i true) := by
  obtain ⟨hlt, hclear, -⟩ := Bitmap.findBlock_one hf
  obtain ⟨hmod, hpos, htop⟩ := hs.pools p
  refine ⟨(s.pool p).phyAddrStart / pgSize + i, ⟨hlt, rfl⟩, ⟨i, ⟨hlt, rfl⟩, hclear⟩, ?_, ?_, ?_⟩
  · unfold pgSize at *
    omega
  · unfold pgSize at *
    omega
  · have hpage : i * pgSize + (s.pool p).phyAddrStart =
        ((s.pool p).phyAddrStart / pgSize + i) * pgSize := by
      unfold pgSize at *
      omega
    rw [getFreePage_some hf, Fs.u32_of_lt (by unfold pgSize at *; omega), hpage]

theorem free_none (hf : (s.pool p).poolBitmap.findBlock 1 = none) : ¬ Free s p g := by
  rintro ⟨i, hi, hclear⟩
  rw [Bitmap.findBlock_one_none hf hi.1] at hclear
  cases hclear

/-- The pools begin behind page zero. -/
theorem free_ne_zero (hs : Tabled s) (h : Free s p g) : g ≠ 0 := by
  obtain ⟨i, hi, -⟩ := h
  obtain ⟨hmod, hpos, -⟩ := hs.pools p
  have hat := hi.2
  unfold pgSize at *
  omega

theorem Tabled.setFrame {i F : Nat} (hs : Tabled s) (hF : FrameOf s p i F) :
    Tabled (s.setFrame p i true) where
  self := hs.self
  dir := hs.dir
  tables := hs.tables
  free q g hg := hs.free q g ((free_setFrame hF).mp hg).1
  pools q := by
    rw [setFrame_pool]
    by_cases h : q = p
    · rw [if_pos h]
      exact hs.pools p
    · rw [if_neg h]
      exact hs.pools q
  apart j k g hj hk := hs.apart j k g (frameOf_setFrame.mp hj) (frameOf_setFrame.mp hk)

end Taken

/-! ## The maps of addresses -/

section Maps
variable {s : State} {p : PoolType}

/-- The map of addresses that goes with a pool. -/
def State.addresses (s : State) : PoolType → VirtualAddr
  | .kernel => s.kernelViraddr
  | .user => (s.tcb s.cur).progressVaddr

/-- The map of addresses is another one. -/
def State.withMap (s : State) : PoolType → Bitmap → State
  | .kernel, b => { s with kernelViraddr := { s.kernelViraddr with vaddrBitmap := b } }
  | .user, b => { s with tcb := Function.update s.tcb s.cur { s.tcb s.cur with
      progressVaddr := { (s.tcb s.cur).progressVaddr with vaddrBitmap := b } } }

theorem setValueBitmap_ok {b : Bitmap} {pos : Nat} (h : pos < b.mapBytesLength * 8) (value : Bool) :
    setValueBitmap b pos value s = .ok (b.setValue pos value, s) := by
  unfold setValueBitmap
  rw [check_bind h]
  rfl

theorem viraddr_ok : viraddr p s = .ok (s.addresses p, s) := by
  cases p <;> rfl

theorem setVaddrBitmap_ok (b : Bitmap) : setVaddrBitmap p b s = .ok ((), s.withMap p b) := by
  cases p <;> rfl

theorem withMap_pool (b : Bitmap) : (s.withMap p b).pool = s.pool := by
  cases p <;> rfl

theorem withMap_mem (b : Bitmap) : (s.withMap p b).mem = s.mem := by
  cases p <;> rfl

theorem withMap_dir (b : Bitmap) : (s.withMap p b).dir = s.dir := by
  cases p <;> rfl

theorem withMap_pgdir (b : Bitmap) :
    ((s.withMap p b).tcb (s.withMap p b).cur).pgdir = (s.tcb s.cur).pgdir := by
  cases p with
  | kernel => rfl
  | user => simp only [State.withMap, Function.update_self]

theorem Tabled.withMap (hs : Tabled s) (b : Bitmap) : Tabled (s.withMap p b) := by
  cases p
  · exact ⟨hs.self, hs.dir, hs.tables, hs.free, hs.pools, hs.apart⟩
  · exact ⟨hs.self, hs.dir, hs.tables, hs.free, hs.pools, hs.apart⟩

end Maps

end Frog.Mm
