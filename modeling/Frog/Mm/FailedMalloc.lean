import Frog.Mm.TakeBack

/-!
# An allocation that fails

When `malloc_page` takes nothing in failing, and gives everything back through `mfree_page`.
-/

namespace Frog.Mm

set_option autoImplicit false
open Bytes Prog
open Fs (u32 u32Sub)

/-- How the kernel runs when it asks for pages: the addresses of the map lie below the tables, no two of
them have one entry, nothing lies at those that are free, and neither does the directory in use. -/
structure Ready (s : State) (p : PoolType) : Prop where
  tabled : Tabled s
  start : (s.addresses p).vaddrStart % pgSize = 0 ∧ 0 < (s.addresses p).vaddrStart
  top : (s.addresses p).vaddrStart + (s.addresses p).vaddrBitmap.mapBytesLength * 8 * pgSize ≤
    0xffc00000
  separate : Separate s.mem s.dir ((s.addresses p).vaddrStart / pgSize)
    ((s.addresses p).vaddrBitmap.mapBytesLength * 8)
  vacant : ∀ pos, pos < (s.addresses p).vaddrBitmap.mapBytesLength * 8 →
    (s.addresses p).vaddrBitmap.getValue pos = false →
    ∀ f, ¬ Shows s.mem s.dir ((s.addresses p).vaddrStart / pgSize + pos) f
  thread : ∀ pos n, pos + n ≤ (s.addresses p).vaddrBitmap.mapBytesLength * 8 →
    (∀ i, pos ≤ i → i < pos + n → (s.addresses p).vaddrBitmap.getValue i = false) →
    Returns s ((s.addresses p).vaddrStart / pgSize + pos) n

/-- The maps of the addresses and of the pools are the same. -/
def SameMaps (s t : State) : Prop :=
  t.kernelViraddr = s.kernelViraddr ∧
    (t.tcb t.cur).progressVaddr = (s.tcb s.cur).progressVaddr ∧ t.pool = s.pool

/-- A failed call leaves the maps and memory alone, and what a call returns can be given back: then the
maps are the old ones, nothing lies at the pages any more, and all other addresses are as they were. -/
structure TakesNothing (s : State) (p : PoolType) (n : Nat) : Prop where
  failed : ∀ t, mallocPage p n s = .ok (0, t) → SameMaps s t ∧ t.mem = s.mem
  freed : ∀ a t, mallocPage p n s = .ok (a, t) → a ≠ 0 → ∃ u, mfreePage p a n t = .ok ((), u) ∧
    SameMaps s u ∧
    (∀ m f, a / pgSize ≤ m → m < a / pgSize + n → ¬ Shows u.mem s.dir m f) ∧
    ∀ m f, m < 2 ^ 20 → (Shows u.mem s.dir m f ↔ Shows s.mem s.dir m f)

/-- There are not so many addresses in a row, or each of those that are found has a table, and the pool
has a page for it. -/
def Granted (s : State) (p : PoolType) (n : Nat) : Prop :=
  (s.addresses p).vaddrBitmap.findBlock n = none ∨
    ∃ pos, (s.addresses p).vaddrBitmap.findBlock n = some pos ∧
      (s.pool p).poolBitmap.firstClear n ≠ none ∧
      AllTables s.mem s.dir ((s.addresses p).vaddrStart / pgSize + pos) n

section Addresses
variable {s t : State} {p : PoolType} {n pos : Nat}

theorem setValues_run {b : Bitmap} {v : Bool} (h : pos + n ≤ b.mapBytesLength * 8) :
    ∃ c, setValues pos v n b s = .ok (c, s) ∧ c.mapBytesLength = b.mapBytesLength ∧
      ∀ i, c.getValue i = if pos ≤ i ∧ i < pos + n then v else b.getValue i := by
  have hrun : ∃ c, setValues pos v n b s = .ok (c, s) ∧ c.mapBytesLength = b.mapBytesLength := by
    induction n with
    | zero => exact ⟨b, rfl, rfl⟩
    | succ n ih =>
      obtain ⟨c, hc, hlen⟩ := ih (by omega)
      refine ⟨c.setValue (pos + n) v, ?_, hlen⟩
      rw [setValues, bind_ok hc, setValueBitmap_ok (by omega)]
  obtain ⟨c, hc, hlen⟩ := hrun
  exact ⟨c, hc, hlen, (setValues_ok hc).2⟩

theorem withMap_addresses (b : Bitmap) :
    (s.withMap p b).addresses p = { s.addresses p with vaddrBitmap := b } := by
  cases p with
  | kernel => rfl
  | user => simp only [State.addresses, State.withMap, Function.update_self]

theorem getFreeVaddress_none (h : (s.addresses p).vaddrBitmap.findBlock n = none) :
    getFreeVaddress p n s = .ok (0, s) := by
  unfold getFreeVaddress
  rw [bind_ok viraddr_ok, h]
  rfl

/-- The first free addresses are taken. -/
theorem getFreeVaddress_some (hs : Ready s p)
    (h : (s.addresses p).vaddrBitmap.findBlock n = some pos) :
    ∃ b, getFreeVaddress p n s =
        .ok (((s.addresses p).vaddrStart / pgSize + pos) * pgSize, s.withMap p b) ∧
      b.mapBytesLength = (s.addresses p).vaddrBitmap.mapBytesLength ∧
      ∀ i, b.getValue i = if pos ≤ i ∧ i < pos + n then true
        else (s.addresses p).vaddrBitmap.getValue i := by
  have hle := (Bitmap.findBlock_clear h).1
  obtain ⟨hmod, -⟩ := hs.start
  have htop := hs.top
  obtain ⟨b, hb, hlen, hbits⟩ := setValues_run (s := s) (v := true) hle
  have haddr : pos * pgSize + (s.addresses p).vaddrStart =
      ((s.addresses p).vaddrStart / pgSize + pos) * pgSize := by
    unfold pgSize at *
    omega
  refine ⟨b, ?_, hlen, hbits⟩
  unfold getFreeVaddress
  rw [bind_ok viraddr_ok, h]
  dsimp only
  rw [bind_ok hb, bind_ok (setVaddrBitmap_ok b), haddr,
    Fs.u32_of_lt (by unfold pgSize at *; omega)]
  rfl

/-- The addresses are given back. -/
theorem freeVaddress_ok {v : VirtualAddr} (ht : (t.addresses p) = v)
    (hstart : v.vaddrStart % pgSize = 0) (hle : pos + n ≤ v.vaddrBitmap.mapBytesLength * 8)
    (htop : v.vaddrStart + v.vaddrBitmap.mapBytesLength * 8 * pgSize ≤ 0xffc00000) :
    ∃ b, freeVaddress p ((v.vaddrStart / pgSize + pos) * pgSize) n t = .ok ((), t.withMap p b) ∧
      b.mapBytesLength = v.vaddrBitmap.mapBytesLength ∧
      ∀ i, b.getValue i = if pos ≤ i ∧ i < pos + n then false else v.vaddrBitmap.getValue i := by
  obtain ⟨b, hb, hlen, hbits⟩ := setValues_run (s := t) (v := false) hle
  have haddr : (v.vaddrStart / pgSize + pos) * pgSize = v.vaddrStart + pos * pgSize := by
    unfold pgSize at *
    omega
  have hpos : u32Sub ((v.vaddrStart / pgSize + pos) * pgSize) v.vaddrStart / pgSize = pos := by
    rw [haddr, Fs.u32Sub_of_le (by omega) (by unfold pgSize at *; omega), Nat.add_sub_cancel_left,
      Nat.mul_div_cancel pos (by norm_num [pgSize])]
  refine ⟨b, ?_, hlen, hbits⟩
  unfold freeVaddress
  rw [bind_ok viraddr_ok, ht, hpos]
  have hfree : freeAddrBitmap v.vaddrBitmap v.vaddrStart ((v.vaddrStart / pgSize + pos) * pgSize) pos n
      t = .ok (b, t) := by
    unfold freeAddrBitmap
    rw [check_bind (by omega), check_bind (by omega), hb]
  rw [bind_ok hfree, setVaddrBitmap_ok]

end Addresses

section Rounds
variable {s t : State} {p : PoolType} {n pos : Nat}

/-- After the addresses are taken. -/
theorem Ready.wired (hs : Ready s p) (h : (s.addresses p).vaddrBitmap.findBlock n = some pos)
    (b : Bitmap) : Wired (s.withMap p b) ((s.addresses p).vaddrStart / pgSize + pos) n := by
  obtain ⟨hle, hclear⟩ := Bitmap.findBlock_clear h
  have htop := hs.top
  refine ⟨hs.tabled.withMap b, by unfold pgSize at *; omega, ?_⟩
  have hr := hs.thread pos n hle hclear
  unfold Returns at *
  rw [withMap_pgdir, withMap_dir, withMap_mem]
  exact hr

theorem findBlock_pos {b : Bitmap} (h : b.findBlock n = some pos) : 0 < n := by
  apply Nat.pos_of_ne_zero
  rintro rfl
  cases h

/-- The run of `malloc_page` is that of its loop. -/
theorem mallocPage_run (hs : Ready s p) (h : (s.addresses p).vaddrBitmap.findBlock n = some pos)
    {b : Bitmap} {r : Bool}
    (hv : getFreeVaddress p n s =
      .ok (((s.addresses p).vaddrStart / pgSize + pos) * pgSize, s.withMap p b))
    (hr : putPages p n (((s.addresses p).vaddrStart / pgSize + pos) * pgSize) (s.withMap p b) =
      .ok (r, t)) :
    mallocPage p n s =
      .ok (if r = true then ((s.addresses p).vaddrStart / pgSize + pos) * pgSize else 0, t) := by
  obtain ⟨hmod, hpos⟩ := hs.start
  have hne : ((s.addresses p).vaddrStart / pgSize + pos) * pgSize ≠ 0 := by
    unfold pgSize at *
    omega
  unfold mallocPage
  rw [check_bind (findBlock_pos h), bind_ok hv, if_neg hne, bind_ok hr]
  cases r <;> rfl

theorem Moved.addresses (h : Moved s t) : t.addresses p = s.addresses p := by
  obtain ⟨-, mem, cr3, pool, rfl⟩ := h
  cases p <;> rfl

theorem SameMaps.addresses (h : SameMaps s t) : t.addresses p = s.addresses p := by
  obtain ⟨hk, hu, -⟩ := h
  cases p with
  | kernel => exact hk
  | user => exact hu

/-- A map that was changed and changed back. -/
theorem sameMaps_withMap {b : Bitmap} {u : State} (hm : Moved (s.withMap p b) t)
    (hu : ∃ mem, u = { (t.withMap p (s.addresses p).vaddrBitmap) with mem := mem, pool := s.pool }) :
    SameMaps s u := by
  obtain ⟨-, mem, cr3, pool, rfl⟩ := hm
  obtain ⟨mem', rfl⟩ := hu
  cases p with
  | kernel => exact ⟨rfl, rfl, rfl⟩
  | user =>
    refine ⟨rfl, ?_, rfl⟩
    simp only [State.withMap, Function.update_self]
    rfl

/-- With tables and pages enough all is given back. -/
theorem granted_freed {is : List Nat} (hs : Ready s p)
    (h : (s.addresses p).vaddrBitmap.findBlock n = some pos)
    (hclear : (s.pool p).poolBitmap.firstClear n = some is)
    (ht : AllTables s.mem s.dir ((s.addresses p).vaddrStart / pgSize + pos) n) :
    TakesNothing s p n := by
  obtain ⟨hle, hfree⟩ := Bitmap.findBlock_clear h
  obtain ⟨hmod, hstart⟩ := hs.start
  have htop := hs.top
  obtain ⟨b, hv, hblen, hbits⟩ := getFreeVaddress_some hs h
  have hw := hs.wired h b
  have hlow := hw.low
  generalize hq : (s.addresses p).vaddrStart / pgSize + pos = q at *
  have hvacant : ∀ m f, q ≤ m → m < q + n → ¬ Shows s.mem s.dir m f := by
    intro m f hqm hmn
    have hm : (s.addresses p).vaddrStart / pgSize + (m - (s.addresses p).vaddrStart / pgSize) = m := by
      omega
    rw [← hm]
    exact hs.vacant _ (by omega) (hfree _ (by omega) (by omega)) f
  have hsep : Separate s.mem s.dir q n := fun m m' table hqm hmn hqm' hmn' =>
    hs.separate m m' table (by omega) (by omega) (by omega) (by omega)
  have hdir : (s.withMap p b).dir = s.dir := withMap_dir b
  have hmem : (s.withMap p b).mem = s.mem := withMap_mem b
  have hpool : (s.withMap p b).pool = s.pool := withMap_pool b
  have hput := putPages_undo (p := p) hw (by rw [hdir, hmem]; exact ht)
    (by rw [hdir, hmem]; exact hsep) (by rw [hdir, hmem]; exact hvacant) (by rw [hpool]; exact hclear)
  rw [hdir, hmem, hpool] at hput
  obtain ⟨t, hrun, hmoved, hundo⟩ := hput
  have hmalloc := mallocPage_run hs h (hq.symm ▸ hv) (hq.symm ▸ hrun)
  rw [hq, if_pos rfl] at hmalloc
  have hne : q * pgSize ≠ 0 := by
    unfold pgSize at *
    omega
  have haddr : t.addresses p = { s.addresses p with vaddrBitmap := b } := by
    rw [hmoved.addresses, withMap_addresses]
  obtain ⟨b', hfreev, hblen', hbits'⟩ := freeVaddress_ok (n := n) haddr hmod
    (by rw [hblen]; exact hle) (by rw [hblen]; exact htop)
  have hback : b' = (s.addresses p).vaddrBitmap := by
    apply Bitmap.ext_getValue (hblen'.trans hblen)
    intro i
    rw [hbits', hbits]
    by_cases hi : pos ≤ i ∧ i < pos + n
    · rw [if_pos hi, hfree i hi.1 hi.2]
    · rw [if_neg hi, if_neg hi]
  rw [hback, hq] at hfreev
  obtain ⟨u, hfreep, hstate, hshow⟩ := hundo (t.withMap p (s.addresses p).vaddrBitmap)
    (withMap_mem _) ((withMap_dir _).trans (hmoved.1.trans hdir)) (withMap_pool _)
  constructor
  · intro t' ht'
    rw [hmalloc] at ht'
    exact absurd (Prod.mk.inj (Except.ok.inj ht')).1 hne
  · intro a t' ht' ha
    rw [hmalloc] at ht'
    cases ht'
    refine ⟨u, ?_, sameMaps_withMap hmoved hstate, ?_, hshow⟩
    · unfold mfreePage
      rw [bind_ok hfreev, hfreep]
    · rw [Nat.mul_div_cancel q (by norm_num [pgSize])]
      intro m f hqm hmn hsu
      exact hvacant m f hqm hmn ((hshow m f (by omega)).mp hsu)

/-- What takes nothing had tables and pages enough. -/
theorem granted_of_takesNothing (hs : Ready s p)
    (h : (s.addresses p).vaddrBitmap.findBlock n = some pos) (hnothing : TakesNothing s p n) :
    (s.pool p).poolBitmap.firstClear n ≠ none ∧
      AllTables s.mem s.dir ((s.addresses p).vaddrStart / pgSize + pos) n := by
  obtain ⟨hle, hfree⟩ := Bitmap.findBlock_clear h
  obtain ⟨hmod, hstart⟩ := hs.start
  have htop := hs.top
  obtain ⟨b, hv, hblen, hbits⟩ := getFreeVaddress_some hs h
  have hw := hs.wired h b
  have hlow := hw.low
  obtain ⟨r, t, hrun, hmoved, htabled, hkeep, htables⟩ := putPages_wired (p := p) hw
  have hmalloc := mallocPage_run hs h hv hrun
  have hdir : (s.withMap p b).dir = s.dir := withMap_dir b
  have hmem : (s.withMap p b).mem = s.mem := withMap_mem b
  have htdir : t.dir = s.dir := hmoved.1.trans hdir
  rw [hdir] at htables
  have haddr : t.addresses p = { s.addresses p with vaddrBitmap := b } := by
    rw [hmoved.addresses, withMap_addresses]
  cases r with
  | false =>
    -- the addresses stay taken
    have hsame := (hnothing.failed t hmalloc).1.addresses (p := p)
    rw [haddr] at hsame
    have hb : b = (s.addresses p).vaddrBitmap := congrArg VirtualAddr.vaddrBitmap hsame
    have hset := hbits pos
    rw [hb, if_pos ⟨Nat.le_refl pos, Nat.lt_add_of_pos_right (findBlock_pos h)⟩,
      hfree pos (Nat.le_refl pos) (Nat.lt_add_of_pos_right (findBlock_pos h))] at hset
    cases hset
  | true =>
    rw [if_pos rfl] at hmalloc
    have hne : ((s.addresses p).vaddrStart / pgSize + pos) * pgSize ≠ 0 := by
      unfold pgSize at *
      omega
    obtain ⟨u, hrunf, -, -, hshow⟩ := hnothing.freed _ t hmalloc hne
    obtain ⟨b', hfreev, -, -⟩ := freeVaddress_ok (n := n) haddr hmod
      (by rw [hblen]; exact hle) (by rw [hblen]; exact htop)
    dsimp only at hfreev
    unfold mfreePage at hrunf
    rw [bind_ok hfreev] at hrunf
    generalize hu₁ : t.withMap p b' = t₁ at hrunf
    have h₁mem : t₁.mem = t.mem := hu₁ ▸ withMap_mem _
    have h₁dir : t₁.dir = s.dir := by
      rw [← hu₁, withMap_dir, htdir]
    have hkeepu := freePages_dir (s := t₁)
      (by rw [h₁mem, h₁dir, ← htdir]; exact htabled.self)
      (by rw [h₁mem, h₁dir, ← htdir]; exact htabled.tables) hlow hrunf
    rw [h₁mem, h₁dir] at hkeepu
    -- a table that was put in is left
    have htabs : AllTables s.mem s.dir ((s.addresses p).vaddrStart / pgSize + pos) n := by
      intro m hqm hmn
      obtain ⟨table, ht⟩ := htables rfl m hqm hmn
      have htu := hkeepu _ _ (by omega) ht
      have hselfu : HasTable u.mem s.dir 1023 s.dir := by
        apply hkeepu _ _ (by norm_num)
        rw [← htdir]
        exact htabled.self
      have hwin : Shows u.mem s.dir (0xffc00 + m / 1024) table :=
        ⟨s.dir, maps_table hselfu (by omega) htu⟩
      obtain ⟨dir', hpde, hpte⟩ := (hshow _ _ (by omega)).mp hwin
      have h₁ : (0xffc00 + m / 1024) / 1024 = 1023 := by omega
      have h₂ : (0xffc00 + m / 1024) % 1024 = m / 1024 := by omega
      rw [h₁] at hpde
      rw [h₂, hpde.2.symm.trans hs.tabled.self.2] at hpte
      exact ⟨table, hpte⟩
    refine ⟨?_, htabs⟩
    intro hnone
    obtain ⟨t', hshort⟩ := putPages_short (p := p) hw (by rw [hdir, hmem]; exact htabs)
      (by rw [withMap_pool]; exact hnone)
    rw [hrun] at hshort
    cases hshort

/-- A failed allocation takes nothing, and one that succeeds can be undone, exactly if there are not
enough addresses, or there are tables and pages for all of them. -/
theorem takesNothing_iff (hs : Ready s p) (n : Nat) : TakesNothing s p n ↔ Granted s p n := by
  unfold Granted
  cases h : (s.addresses p).vaddrBitmap.findBlock n with
  | none =>
    refine iff_of_true ?_ (.inl rfl)
    have hrun : ∀ a t, mallocPage p n s = .ok (a, t) → a = 0 ∧ t = s := by
      intro a t ht
      unfold mallocPage at ht
      obtain ⟨_, s₁, hc, ht⟩ := bind_eq_ok.mp ht
      cases (check_eq_ok.mp hc).2
      rw [bind_ok (getFreeVaddress_none h), if_pos rfl] at ht
      cases ht
      exact ⟨rfl, rfl⟩
    constructor
    · intro t ht
      obtain ⟨-, rfl⟩ := hrun 0 t ht
      exact ⟨⟨rfl, rfl, rfl⟩, rfl⟩
    · intro a t ht ha
      exact absurd (hrun a t ht).1 ha
  | some pos =>
    constructor
    · intro hnothing
      exact .inr ⟨pos, rfl, granted_of_takesNothing hs h hnothing⟩
    · rintro (hnone | ⟨pos', hpos, hclear, ht⟩)
      · cases hnone
      · cases hpos
        obtain ⟨is, his⟩ := Option.ne_none_iff_exists'.mp hclear
        exact granted_freed hs h his ht

end Rounds

/-! ## A directory with one table -/

/-- The user's addresses from 0x08000000 on have an empty table at page 0x101, and eight of them are to be
had. `bits` is the map of the user's pool. -/
def oneTable (bits : Byte) : State :=
  { noPages with
    mem := withPage (withPage (fun _ => 0) 0x100 1023 0x100) 0x100 32 0x101
    cr3 := 0x100000
    tcb := fun a => { noPages.tcb a with
      pgdir := 0
      progressVaddr := ⟨⟨fun _ => 0, 1⟩, userVaddrStart⟩ }
    pool := fun p => match p with
      | .kernel => ⟨⟨fun _ => 0xff, 1⟩, 0x201000, 8 * pgSize⟩
      | .user => ⟨⟨fun _ => bits, 1⟩, 0x209000, 8 * pgSize⟩ }

section OneTable
variable {bits : Byte} {p : PoolType} {i k m f g : Nat}

theorem oneTable_dir (bits : Byte) : (oneTable bits).dir = 0x100 := by
  change 0x100000 / pgSize = 0x100
  norm_num [pgSize]

theorem oneTable_entry {j : Nat} (hj : j < 1024) : entry (oneTable bits).mem g j =
    if g = 0x100 ∧ j = 32 then entryOf (0x101 * pgSize)
    else if g = 0x100 ∧ j = 1023 then entryOf (0x100 * pgSize) else 0 := by
  have h₁ : entry (oneTable bits).mem g j = if g = 0x100 ∧ j = 32 % 1024
      then entryOf (0x101 * pgSize) else entry (withPage (fun _ => 0) 0x100 1023 0x100) g j :=
    entry_withPage (by norm_num [pgSize]) hj
  have h₂ : entry (withPage (fun _ => 0) 0x100 1023 0x100) g j = if g = 0x100 ∧ j = 1023 % 1024
      then entryOf (0x100 * pgSize) else entry (fun _ => 0) g j :=
    entry_withPage (by norm_num [pgSize]) hj
  rw [h₁, h₂]
  rfl

theorem oneTable_hasTable (hk : k < 1024) :
    HasTable (oneTable bits).mem 0x100 k g ↔ k = 32 ∧ g = 0x101 ∨ k = 1023 ∧ g = 0x100 := by
  have hent : entry (oneTable bits).mem 0x100 k = _ := oneTable_entry hk
  by_cases h₁ : k = 32
  · rw [if_pos ⟨rfl, h₁⟩] at hent
    rw [HasTable, leads_entryOf_iff hent]
    omega
  · by_cases h₂ : k = 1023
    · rw [if_neg fun h => h₁ h.2, if_pos ⟨rfl, h₂⟩] at hent
      rw [HasTable, leads_entryOf_iff hent]
      omega
    · rw [if_neg fun h => h₁ h.2, if_neg fun h => h₂ h.2] at hent
      exact iff_of_false (not_leads_zero hent) (by omega)

theorem oneTable_shows (hm : Below m) : ¬ Shows (oneTable bits).mem 0x100 m f := by
  rintro ⟨table, hpde, hpte⟩
  obtain ⟨-, hk, hj, -⟩ := below_iff hm
  have htab : table = 0x101 := by
    rcases (oneTable_hasTable (by omega)).mp hpde with h | h <;> omega
  have hent : entry (oneTable bits).mem table (m % 1024) = _ := oneTable_entry hj
  rw [if_neg (by omega), if_neg (by omega)] at hent
  exact not_leads_zero hent hpte

theorem oneTable_frameOf (h : FrameOf (oneTable bits) p i f) :
    i < 8 ∧ f = (match p with | .kernel => 0x201 | .user => 0x209) + i := by
  obtain ⟨hlt, hat⟩ := h
  cases p with
  | kernel =>
    have hbase : 0x201000 / pgSize = 0x201 := by norm_num [pgSize]
    exact ⟨hlt, hat.trans (congrArg (· + i) hbase)⟩
  | user =>
    have hbase : 0x209000 / pgSize = 0x209 := by norm_num [pgSize]
    exact ⟨hlt, hat.trans (congrArg (· + i) hbase)⟩

theorem oneTable_tabled (bits : Byte) : Tabled (oneTable bits) := by
  constructor
  · rw [oneTable_dir]
    exact (oneTable_hasTable (by norm_num)).mpr (.inr ⟨rfl, rfl⟩)
  · rw [oneTable_dir]
    norm_num
  · intro k f hk hf
    rw [oneTable_dir] at hf ⊢
    have h := (oneTable_hasTable (by omega)).mp hf
    omega
  · intro p f hf
    rw [oneTable_dir]
    obtain ⟨i, hi, -⟩ := hf
    obtain ⟨hlt, hat⟩ := oneTable_frameOf hi
    have hbig : 0x201 ≤ f := by
      cases p <;> (dsimp only at hat; omega)
    refine ⟨by omega, ?_, fun m hm => oneTable_shows hm⟩
    intro k hk hf
    have h := (oneTable_hasTable (by omega)).mp hf
    omega
  · intro p
    cases p <;> norm_num [oneTable, pgSize]
  · intro i j f hi hj
    have h₁ := oneTable_frameOf hi
    have h₂ := oneTable_frameOf hj
    dsimp only at h₁ h₂
    omega

theorem oneTable_ready (bits : Byte) : Ready (oneTable bits) .user := by
  have hbase : userVaddrStart / pgSize = 0x8000 := by norm_num [userVaddrStart, pgSize]
  constructor
  · exact oneTable_tabled bits
  · norm_num [oneTable, State.addresses, userVaddrStart, pgSize]
  · norm_num [oneTable, State.addresses, userVaddrStart, pgSize]
  · intro m m' table hq hn hq' hn' _ _ hmod
    change userVaddrStart / pgSize ≤ m at hq
    change m < userVaddrStart / pgSize + 1 * 8 at hn
    change userVaddrStart / pgSize ≤ m' at hq'
    change m' < userVaddrStart / pgSize + 1 * 8 at hn'
    omega
  · intro pos hpos _ f
    change pos < 1 * 8 at hpos
    change ¬ Shows _ _ (userVaddrStart / pgSize + pos) f
    rw [oneTable_dir, hbase]
    exact oneTable_shows (by unfold Below; omega)
  · intro pos n _ _
    exact .inl ⟨rfl, oneTable_dir bits⟩

theorem oneTable_find (bits : Byte) :
    ((oneTable bits).addresses .user).vaddrBitmap.findBlock 1 = some 0 := by
  change (⟨fun _ => 0, 1⟩ : Bitmap).findBlock 1 = some 0
  decide

/-- With no page left the address stays taken. -/
theorem address_stays_taken : Ready (oneTable 0xff) .user ∧
    ∃ t, mallocPage .user 1 (oneTable 0xff) = .ok (0, t) ∧
      (t.addresses .user).vaddrBitmap.getValue 0 = true ∧
      ((oneTable 0xff).addresses .user).vaddrBitmap.getValue 0 = false := by
  refine ⟨oneTable_ready _, ?_⟩
  obtain ⟨b, hv, -, hbits⟩ := getFreeVaddress_some (oneTable_ready 0xff) (oneTable_find _)
  have hput : ∀ v, putPages .user 1 v ((oneTable 0xff).withMap .user b) =
      .ok (false, (oneTable 0xff).withMap .user b) := by
    intro v
    have hnone : (((oneTable 0xff).withMap .user b).pool .user).poolBitmap.findBlock 1 = none := by
      rw [withMap_pool]
      decide
    rw [putPages, bind_ok (getFreePage_none hnone)]
    rfl
  have hrun := mallocPage_run (oneTable_ready _) (oneTable_find _) hv (hput _)
  refine ⟨_, hrun, ?_, by decide⟩
  rw [withMap_addresses, hbits, if_pos (by norm_num)]

theorem takesNothing_oneTable :
    TakesNothing (oneTable 0xfe) .user 1 ∧ ¬ TakesNothing (oneTable 0xff) .user 1 := by
  rw [takesNothing_iff (oneTable_ready _), takesNothing_iff (oneTable_ready _)]
  constructor
  · refine .inr ⟨0, oneTable_find _, by decide, ?_⟩
    intro m hm hm'
    have hbase : userVaddrStart / pgSize = 0x8000 := by norm_num [userVaddrStart, pgSize]
    change userVaddrStart / pgSize + 0 ≤ m at hm
    change m < userVaddrStart / pgSize + 0 + 1 at hm'
    rw [oneTable_dir]
    exact ⟨0x101, (oneTable_hasTable (by omega)).mpr (.inl ⟨by omega, rfl⟩)⟩
  · rintro (h | ⟨pos, -, hclear, -⟩)
    · rw [oneTable_find] at h
      cases h
    · exact hclear (by decide)

end OneTable

end Frog.Mm
