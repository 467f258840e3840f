import Frog.Mm.PutPages

/-!
# Pages that are put and taken back

Where the tables are there, the loop of `malloc_page` writes the entries of its pages and nothing else,
and the loop of `mfree_page` clears them again and gives the pages back.
-/

namespace Frog.Mm

set_option autoImplicit false
open Bytes Prog
open Fs (u32 u32Sub)

/-- Every page from `q` to `q + n` has a table. -/
def AllTables (mem : Store) (d q n : Nat) : Prop :=
  ∀ m, q ≤ m → m < q + n → ∃ table, HasTable mem d (m / 1024) table

/-- Entry `j` of page `table` is that of a page from `q` to `q + n`. -/
def Place (mem : Store) (d q n table j : Nat) : Prop :=
  ∃ m, q ≤ m ∧ m < q + n ∧ HasTable mem d (m / 1024) table ∧ j = m % 1024

/-- No two pages from `q` to `q + n` have one entry. -/
def Separate (mem : Store) (d q n : Nat) : Prop :=
  ∀ m m' table, q ≤ m → m < q + n → q ≤ m' → m' < q + n → HasTable mem d (m / 1024) table →
    HasTable mem d (m' / 1024) table → m % 1024 = m' % 1024 → m = m'

/-- The pages from `q` on show the pages `fs` of memory. -/
def ShowsAll (mem : Store) (d : Nat) : Nat → List Nat → Prop
  | _, [] => True
  | q, f :: fs => Shows mem d q f ∧ ShowsAll mem d (q + 1) fs

/-- The bits of a pool take a value. -/
def State.setFrames (s : State) (p : PoolType) (is : List Nat) (v : Bool) : PoolType → Pool :=
  Function.update s.pool p { s.pool p with poolBitmap := (s.pool p).poolBitmap.setAll v is }

section Places
variable {mem mem' : Store} {d q n table j : Nat}

theorem AllTables.tail (h : AllTables mem d q (n + 1)) : AllTables mem d (q + 1) n :=
  fun m hq hn => h m (by omega) (by omega)

theorem Separate.tail (h : Separate mem d q (n + 1)) : Separate mem d (q + 1) n :=
  fun m m' table hq hn hq' hn' => h m m' table (by omega) (by omega) (by omega) (by omega)

theorem Place.tail (h : Place mem d (q + 1) n table j) : Place mem d q (n + 1) table j := by
  obtain ⟨m, hq, hn, ht, hj⟩ := h
  exact ⟨m, by omega, by omega, ht, hj⟩

/-- The first place, or one of the rest. -/
theorem place_succ : Place mem d q (n + 1) table j ↔
    (HasTable mem d (q / 1024) table ∧ j = q % 1024) ∨ Place mem d (q + 1) n table j := by
  constructor
  · intro h
    obtain ⟨m, hq, hn, ht, hj⟩ := h
    by_cases hm : m = q
    · subst hm
      exact .inl ⟨ht, hj⟩
    · exact .inr ⟨m, by omega, by omega, ht, hj⟩
  · rintro (⟨ht, hj⟩ | h)
    · exact ⟨q, Nat.le_refl q, by omega, ht, hj⟩
    · exact h.tail

/-- The directory decides where the places are. -/
theorem place_congr (hlow : q + n ≤ 0xffc00)
    (h : ∀ k g, k < 1024 → (HasTable mem' d k g ↔ HasTable mem d k g)) :
    Place mem' d q n table j ↔ Place mem d q n table j := by
  constructor
  · intro hp
    obtain ⟨m, hq, hn, ht, hj⟩ := hp
    exact ⟨m, hq, hn, (h _ _ (by omega)).mp ht, hj⟩
  · intro hp
    obtain ⟨m, hq, hn, ht, hj⟩ := hp
    exact ⟨m, hq, hn, (h _ _ (by omega)).mpr ht, hj⟩

theorem Separate.congr (hs : Separate mem d q n) (hlow : q + n ≤ 0xffc00)
    (h : ∀ k g, k < 1024 → (HasTable mem' d k g ↔ HasTable mem d k g)) :
    Separate mem' d q n :=
  fun m m' table hq hn hq' hn' ht ht' =>
    hs m m' table hq hn hq' hn' ((h _ _ (by omega)).mp ht) ((h _ _ (by omega)).mp ht')

theorem AllTables.congr (hs : AllTables mem d q n) (hlow : q + n ≤ 0xffc00)
    (h : ∀ k g, k < 1024 → HasTable mem d k g → HasTable mem' d k g) : AllTables mem' d q n := by
  intro m hq hn
  obtain ⟨table, ht⟩ := hs m hq hn
  exact ⟨table, h _ _ (by omega) ht⟩

/-- What lies in other entries shows what it did. -/
theorem ShowsAll.congr {fs : List Nat} (h : ShowsAll mem d q fs) (hlow : q + fs.length ≤ 0xffc00)
    (hdir : ∀ k g, k < 1024 → HasTable mem d k g → HasTable mem' d k g)
    (hent : ∀ table j, Place mem d q fs.length table j → entry mem' table j = entry mem table j) :
    ShowsAll mem' d q fs := by
  induction fs generalizing q with
  | nil => trivial
  | cons f fs ih =>
    rw [List.length_cons] at hlow hent
    obtain ⟨⟨table, hpde, hpte⟩, hrest⟩ := h
    refine ⟨⟨table, hdir _ _ (by omega) hpde, (leads_entry ?_).mpr hpte⟩, ih hrest (by omega) ?_⟩
    · exact hent table _ ⟨q, Nat.le_refl q, by omega, hpde, rfl⟩
    · intro table' j hp
      exact hent table' j hp.tail

end Places

/-! ## Putting -/

section Put
variable {s : State} {p : PoolType} {q n i : Nat}

/-- One page of the run, with a table. -/
theorem putPages_put {table : Nat} (hs : Wired s q (n + 1))
    (hfind : (s.pool p).poolBitmap.findBlock 1 = some i)
    (ht : HasTable s.mem s.dir (q / 1024) table) :
    ∃ cr3 F, putPages p (n + 1) (q * pgSize) s = putPages p n ((q + 1) * pgSize)
        { s.setFrame p i true with mem := withPage s.mem table q F, cr3 := cr3 } ∧
      cr3 / pgSize = s.dir ∧ (F + 1) * pgSize ≤ 2 ^ 32 ∧ FrameOf s p i F ∧
      Wired { s.setFrame p i true with mem := withPage s.mem table q F, cr3 := cr3 } (q + 1) n := by
  obtain ⟨F, hF, hfree, h0, hlt, hg⟩ := getFreePage_first hs.tabled hfind
  have hne : F * pgSize ≠ 0 := Nat.mul_ne_zero h0 (by norm_num [pgSize])
  have hnext : u32 (q * pgSize + pgSize) = (q + 1) * pgSize := by
    have hlow := hs.low
    rw [Fs.u32_of_lt (by unfold pgSize; omega), Nat.add_mul, Nat.one_mul]
  obtain ⟨cr3, hrun, hcr3, hw⟩ := putPage_table (hs.setFrame hF)
    (fresh_setFrame hs.tabled hF hfree hlt) ht
  refine ⟨cr3, F, ?_, hcr3, hlt, hF, hw⟩
  rw [putPages, bind_ok hg, if_neg hne, bind_ok hrun, hnext]
  rfl

theorem setFrame_findBlock (v : Bool) : ((s.setFrame p i v).pool p).poolBitmap =
    (s.pool p).poolBitmap.setValue i v := by
  rw [setFrame_pool, if_pos rfl]

/-- What the loop leaves behind when there are pages and tables enough. -/
structure Put (s t : State) (p : PoolType) (q n : Nat) (is : List Nat) : Prop where
  moved : Moved s t
  pool : t.pool = s.setFrames p is true
  shows : ShowsAll t.mem s.dir q (is.map ((s.pool p).phyAddrStart / pgSize + ·))
  entries : ∀ table j, j < 1024 → ¬ Place s.mem s.dir q n table j →
    entry t.mem table j = entry s.mem table j

theorem putPages_all {is : List Nat} (hs : Wired s q n) (ht : AllTables s.mem s.dir q n)
    (hsep : Separate s.mem s.dir q n) (hclear : (s.pool p).poolBitmap.firstClear n = some is) :
    ∃ t, putPages p n (q * pgSize) s = .ok (true, t) ∧ Put s t p q n is := by
  induction n generalizing s q is with
  | zero =>
    cases hclear
    refine ⟨s, rfl, ⟨rfl, _, _, _, rfl⟩, ?_, trivial, fun _ _ _ _ => rfl⟩
    exact (Function.update_eq_self p s.pool).symm
  | succ n ih =>
    obtain ⟨i, rest, hfind, hrest, rfl⟩ := Bitmap.firstClear_succ_eq_some.mp hclear
    obtain ⟨table, htab⟩ := ht q (Nat.le_refl q) (by omega)
    obtain ⟨cr3, F, hrun, hcr3, hlt, hF, hw⟩ := putPages_put hs hfind htab
    have hk : q / 1024 < 1023 := hs.below.2.2.2.2
    have hlow := hs.low
    have hd : s.dir ≠ table := Ne.symm (hs.tabled.tables _ _ hk htab)
    let s' : State := { s.setFrame p i true with mem := withPage s.mem table q F, cr3 := cr3 }
    have hdir : ∀ k g, k < 1024 → (HasTable s'.mem s.dir k g ↔ HasTable s.mem s.dir k g) :=
      fun k g hk' => hasTable_withPage hlt hd hk'
    have hdir' : s'.dir = s.dir := hcr3
    obtain ⟨t, hrun', hput⟩ := ih (s := s') hw
      (by
        rw [hdir']
        exact ht.tail.congr (by omega) fun k g hk' => (hdir k g hk').mpr)
      (by
        rw [hdir']
        exact hsep.tail.congr (by omega) hdir)
      (by
        change ((s.setFrame p i true).pool p).poolBitmap.firstClear n = some rest
        rw [setFrame_findBlock]
        exact hrest)
    have hentries := hput.entries
    have hshows := hput.shows
    rw [hdir'] at hentries hshows
    refine ⟨t, hrun.trans hrun', Moved.trans ⟨hdir', _, _, _, rfl⟩ hput.moved, ?_, ⟨?_, ?_⟩, ?_⟩
    · rw [hput.pool]
      unfold State.setFrames
      change Function.update (s.setFrame p i true).pool p _ = _
      rw [setFrame_pool, if_pos rfl]
      unfold State.setFrame
      rw [Function.update_idem]
      rfl
    · -- the entry of the first page is none of the rest
      refine ⟨table, ?_, ?_⟩
      · have hdt := hput.moved
        apply (leads_entry ?_).mpr ((hdir _ _ (by omega)).mpr htab)
        apply hentries _ _ (by omega)
        rintro ⟨m, hqm, hmn, hmt, -⟩
        exact hs.tabled.tables _ _ (by omega) ((hdir _ _ (by omega)).mp hmt) rfl
      · change Leads _ _ ((s.pool p).phyAddrStart / pgSize + i)
        rw [← hF.2]
        apply (leads_entryOf_iff ?_).mpr rfl
        rw [hentries _ _ (Nat.mod_lt _ (by norm_num))]
        · exact (entry_withPage hlt (Nat.mod_lt _ (by norm_num))).trans (if_pos ⟨rfl, rfl⟩)
        · rintro ⟨m, hqm, hmn, hmt, hmod⟩
          have := hsep q m table (Nat.le_refl q) (by omega) (by omega) (by omega) htab
            ((hdir _ _ (by omega)).mp hmt) hmod
          omega
    · have hbase : (s'.pool p).phyAddrStart = (s.pool p).phyAddrStart := by
        change ((s.setFrame p i true).pool p).phyAddrStart = _
        rw [setFrame_pool, if_pos rfl]
      rw [hbase] at hshows
      exact hshows
    · intro table' j hj hp
      rw [place_succ, not_or] at hp
      rw [hentries table' j hj fun h => hp.2 ((place_congr (by omega) hdir).mp h)]
      change entry (withPage s.mem table q F) table' j = _
      rw [entry_withPage hlt hj, if_neg]
      rintro ⟨rfl, rfl⟩
      exact hp.1 ⟨htab, rfl⟩

/-- The loop runs out of pages exactly when there are not enough. -/
theorem putPages_short (hs : Wired s q n) (ht : AllTables s.mem s.dir q n)
    (hclear : (s.pool p).poolBitmap.firstClear n = none) :
    ∃ t, putPages p n (q * pgSize) s = .ok (false, t) := by
  induction n generalizing s q with
  | zero => cases hclear
  | succ n ih =>
    cases hfind : (s.pool p).poolBitmap.findBlock 1 with
    | none =>
      refine ⟨s, ?_⟩
      rw [putPages, bind_ok (getFreePage_none hfind)]
      rfl
    | some i =>
      rw [Bitmap.firstClear_succ hfind, Option.map_eq_none_iff] at hclear
      obtain ⟨table, htab⟩ := ht q (Nat.le_refl q) (by omega)
      obtain ⟨cr3, F, hrun, hcr3, hlt, hF, hw⟩ := putPages_put hs hfind htab
      have hd : s.dir ≠ table := Ne.symm (hs.tabled.tables _ _ hs.below.2.2.2.2 htab)
      have hlow := hs.low
      obtain ⟨t, hrun'⟩ := ih hw
        (by
          rw [show State.dir _ = s.dir from hcr3]
          exact ht.tail.congr (by omega) fun k g hk' => (hasTable_withPage hlt hd hk').mpr)
        (by
          change ((s.setFrame p i true).pool p).poolBitmap.firstClear n = none
          rw [setFrame_findBlock]
          exact hclear)
      exact ⟨t, hrun.trans hrun'⟩

end Put

/-! ## Taking back -/

section Taken
variable {s t : State} {p : PoolType} {q n i table : Nat}

theorem entry_cleared {mem : Store} {table' j : Nat} (hj : j < 1024) :
    entry (cleared mem table q) table' j = if table' = table ∧ j = q % 1024
      then entry mem table (q % 1024) &&& 0xfffffffe else entry mem table' j :=
  entry_store (Nat.mod_lt _ (by norm_num)) hj
    (Nat.lt_of_le_of_lt Nat.and_le_right (by norm_num))

theorem and_even (w : Nat) : (w &&& 0xfffffffe) % 2 = 0 := by
  rw [Nat.mod_two_eq_zero_iff_testBit_zero, Nat.testBit_and]
  simp

theorem not_leads_cleared {mem : Store} {g : Nat} :
    ¬ Leads (cleared mem table q) (table * pgSize + 4 * (q % 1024)) g := by
  intro h
  have hset : entry (cleared mem table q) table (q % 1024) % 2 = 1 := h.1
  rw [entry_cleared (Nat.mod_lt _ (by norm_num)), if_pos ⟨rfl, rfl⟩] at hset
  rw [and_even] at hset
  cases hset

theorem hasTable_cleared {mem : Store} {d k g : Nat} (hd : d ≠ table) (hk : k < 1024) :
    HasTable (cleared mem table q) d k g ↔ HasTable mem d k g :=
  leads_entry (by rw [entry_cleared hk, if_neg fun h => hd h.1])

/-- What the loop of `mfree_page` leaves behind. -/
structure TakenBack (s t : State) (p : PoolType) (q n : Nat) (is : List Nat) : Prop where
  state : ∃ mem, t = { s with mem := mem, pool := s.setFrames p is false }
  hidden : ∀ table j g, Place s.mem s.dir q n table j → ¬ Leads t.mem (table * pgSize + 4 * j) g
  entries : ∀ table j, j < 1024 → ¬ Place s.mem s.dir q n table j →
    entry t.mem table j = entry s.mem table j

/-- One page is given back, and the loop goes on with the next. -/
theorem freePages_turn {i k : Nat} (hself : HasTable s.mem s.dir 1023 s.dir) (hlow : q < 0xffc00)
    (hstart : (s.pool p).phyAddrStart % pgSize = 0)
    (hi : i < (s.pool p).poolBitmap.mapBytesLength * 8) (hd : s.dir ≠ table)
    (hmaps : Maps s.mem s.dir q table ((s.pool p).phyAddrStart / pgSize + i)) :
    freePages p (k + 1) (q * pgSize) s =
      freePages p k ((q + 1) * pgSize) { s.setFrame p i false with mem := cleared s.mem table q } := by
  have hv : q * pgSize < 2 ^ 32 := by
    unfold pgSize
    omega
  have hdiv : q * pgSize / pgSize = q := Nat.mul_div_cancel q (by norm_num [pgSize])
  have hnext : u32 (q * pgSize + pgSize) = (q + 1) * pgSize := by
    rw [Fs.u32_of_lt (by unfold pgSize; omega), Nat.add_mul, Nat.one_mul]
  have hframe : ((s.pool p).phyAddrStart / pgSize + i) * pgSize =
      (s.pool p).phyAddrStart + i * pgSize := by
    unfold pgSize at *
    omega
  have hvirt := virtualAddr_ok (t := s) (v := q * pgSize) hv hself (hdiv.symm ▸ hmaps)
  have hfree := freePage_ok (s := s) (t := p) hi hframe
  have hrem := removePage_ok (t := s.setFrame p i false) (v := q * pgSize) hv hself
    (hdiv.symm ▸ hmaps.pde) hd
  rw [hdiv] at hrem
  rw [freePages, bind_ok hvirt, bind_ok hfree, bind_ok hrem, hnext]
  rfl

theorem freePages_all {is : List Nat} (hself : HasTable s.mem s.dir 1023 s.dir)
    (htables : ∀ k g, k < 1023 → HasTable s.mem s.dir k g → g ≠ s.dir)
    (hlow : q + is.length ≤ 0xffc00) (hstart : (s.pool p).phyAddrStart % pgSize = 0)
    (hbits : ∀ i ∈ is, i < (s.pool p).poolBitmap.mapBytesLength * 8)
    (hsep : Separate s.mem s.dir q is.length)
    (hshows : ShowsAll s.mem s.dir q (is.map ((s.pool p).phyAddrStart / pgSize + ·))) :
    ∃ t, freePages p is.length (q * pgSize) s = .ok ((), t) ∧ TakenBack s t p q is.length is := by
  induction is generalizing s q with
  | nil =>
    refine ⟨s, rfl, ⟨s.mem, ?_⟩, ?_, fun _ _ _ _ => rfl⟩
    · unfold State.setFrames
      rw [show (s.pool p).poolBitmap.setAll false [] = (s.pool p).poolBitmap from rfl]
      rw [Function.update_eq_self]
    · rintro table j g ⟨m, hq, hn, -⟩
      rw [List.length_nil] at hn
      omega
  | cons i is ih =>
    rw [List.length_cons] at hlow hsep
    obtain ⟨⟨table, hpde, hpte⟩, hrest⟩ := hshows
    have hk : q / 1024 < 1023 := by omega
    have hd : s.dir ≠ table := Ne.symm (htables _ _ hk hpde)
    let s' : State := { s.setFrame p i false with mem := cleared s.mem table q }
    have hdir : ∀ k g, k < 1024 → (HasTable s'.mem s.dir k g ↔ HasTable s.mem s.dir k g) :=
      fun k g hk' => hasTable_cleared hd hk'
    have hpool : s'.pool p = { s.pool p with poolBitmap := (s.pool p).poolBitmap.setValue i false } := by
      change (s.setFrame p i false).pool p = _
      rw [setFrame_pool, if_pos rfl]
    have hbase : (s'.pool p).phyAddrStart = (s.pool p).phyAddrStart := by rw [hpool]
    obtain ⟨t, hrun, hstate, hhidden, hentries⟩ := ih (s := s') (q := q + 1)
      ((hdir _ _ (by norm_num)).mpr hself)
      (fun k g hk' hg => htables k g hk' ((hdir k g (by omega)).mp hg)) (by omega)
      (by
        rw [hbase]
        exact hstart)
      (by
        intro j hj
        rw [hpool]
        exact hbits j (List.mem_cons_of_mem i hj))
      (hsep.tail.congr (by omega) hdir)
      (by
        rw [hbase]
        apply hrest.congr
        · rw [List.length_map]
          omega
        · exact fun k g hk' => (hdir k g hk').mpr
        · rw [List.length_map]
          intro table' j hp
          obtain ⟨m, hqm, hmn, hmt, hj⟩ := hp
          change entry (cleared s.mem table q) table' j = _
          rw [entry_cleared (by omega), if_neg]
          rintro ⟨rfl, rfl⟩
          have := hsep q m table' (Nat.le_refl q) (by omega) (by omega) (by omega) hpde hmt hj
          omega)
    have hplace : ∀ table' j, Place s'.mem s.dir (q + 1) is.length table' j ↔
        Place s.mem s.dir (q + 1) is.length table' j := fun _ _ => place_congr (by omega) hdir
    refine ⟨t, ?_, ?_, ?_, ?_⟩
    · rw [List.length_cons,
        freePages_turn hself (by omega) hstart (hbits i List.mem_cons_self) hd ⟨hpde, hpte⟩]
      exact hrun
    · obtain ⟨mem, rfl⟩ := hstate
      refine ⟨mem, ?_⟩
      have hset : s'.setFrames p is false = s.setFrames p (i :: is) false := by
        unfold State.setFrames
        rw [hpool]
        change Function.update (Function.update s.pool p _) p _ = _
        rw [Function.update_idem]
        rfl
      rw [hset]
      rfl
    · intro table' j g hp
      rw [List.length_cons, place_succ] at hp
      by_cases hp' : Place s.mem s.dir (q + 1) is.length table' j
      · exact hhidden table' j g ((hplace table' j).mpr hp')
      · obtain ⟨ht, rfl⟩ := hp.resolve_right hp'
        have htt : table' = table := ht.2.symm.trans hpde.2
        subst htt
        intro hl
        have he := hentries table' _ (Nat.mod_lt _ (by norm_num)) fun h => hp' ((hplace _ _).mp h)
        exact not_leads_cleared ((leads_entry he).mp hl)
    · intro table' j hj hp
      rw [List.length_cons, place_succ, not_or] at hp
      rw [hentries table' j hj fun h => hp.2 ((hplace _ _).mp h)]
      change entry (cleared s.mem table q) table' j = _
      rw [entry_cleared hj, if_neg]
      rintro ⟨rfl, rfl⟩
      exact hp.1 ⟨hpde, rfl⟩

/-- A page that is given back has a table. -/
theorem virtualAddr_set {v a : Nat} (hself : HasTable s.mem s.dir 1023 s.dir) (hv : v < 2 ^ 32)
    (h : virtualAddrToPhysicalAddr v s = .ok (a, t)) :
    le32 s.mem (s.dir * pgSize + 4 * (v / pgSize / 1024)) % 2 = 1 ∧ t = s := by
  unfold virtualAddrToPhysicalAddr at h
  rw [bind_ok (load_pde hself hv)] at h
  obtain ⟨_, s₁, hset, hrest⟩ := bind_eq_ok.mp h
  have hs₁ := (check_eq_ok.mp hset).2
  obtain ⟨b, s₂, hl, hrest'⟩ := bind_eq_ok.mp hrest
  have hs₂ := load32_same hl
  obtain ⟨_, s₃, hset', hlast⟩ := bind_eq_ok.mp hrest'
  have hs₃ := (check_eq_ok.mp hset').2
  cases hlast
  exact ⟨(check_eq_ok.mp hset).1, hs₃.trans (hs₂.trans hs₁)⟩

theorem freePage_pool {a : Nat} (h : freePage p a s = .ok ((), t)) :
    ∃ pool, t = { s with pool := pool } := by
  obtain ⟨s', s₁, hg, h⟩ := bind_eq_ok.mp h
  cases hg
  obtain ⟨b, s₂, hb, h⟩ := bind_eq_ok.mp h
  obtain ⟨_, s₃, hc, hb⟩ := bind_eq_ok.mp hb
  cases (check_eq_ok.mp hc).2
  obtain ⟨_, s₄, hc, hb⟩ := bind_eq_ok.mp hb
  cases (check_eq_ok.mp hc).2
  cases (setValues_ok hb).1
  cases h
  exact ⟨_, rfl⟩

/-- Whatever is given back, the directory keeps its tables. -/
theorem freePages_dir (hself : HasTable s.mem s.dir 1023 s.dir)
    (htables : ∀ k g, k < 1023 → HasTable s.mem s.dir k g → g ≠ s.dir) (hlow : q + n ≤ 0xffc00)
    (hrun : freePages p n (q * pgSize) s = .ok ((), t)) :
    ∀ k g, k < 1024 → HasTable s.mem s.dir k g → HasTable t.mem s.dir k g := by
  induction n generalizing s q with
  | zero =>
    cases hrun
    exact fun k g _ h => h
  | succ n ih =>
    have hv : q * pgSize < 2 ^ 32 := by
      unfold pgSize
      omega
    have hdiv : q * pgSize / pgSize = q := Nat.mul_div_cancel q (by norm_num [pgSize])
    have hnext : u32 (q * pgSize + pgSize) = (q + 1) * pgSize := by
      rw [Fs.u32_of_lt (by unfold pgSize; omega), Nat.add_mul, Nat.one_mul]
    rw [freePages] at hrun
    obtain ⟨a, s₁, hvirt, hrun⟩ := bind_eq_ok.mp hrun
    obtain ⟨_, s₂, hfree, hrun⟩ := bind_eq_ok.mp hrun
    obtain ⟨_, s₃, hrem, hrun⟩ := bind_eq_ok.mp hrun
    obtain ⟨hset, rfl⟩ := virtualAddr_set hself hv hvirt
    rw [hdiv] at hset
    obtain ⟨table, hpde⟩ : ∃ table, HasTable s₁.mem s₁.dir (q / 1024) table := ⟨_, hset, rfl⟩
    have hd : s₁.dir ≠ table := Ne.symm (htables _ _ (by omega) hpde)
    obtain ⟨pool, rfl⟩ := freePage_pool hfree
    rw [removePage_ok (t := { s₁ with pool := pool }) hv hself (hdiv.symm ▸ hpde) hd, hdiv] at hrem
    cases hrem
    rw [hnext] at hrun
    have hdir : ∀ k g, k < 1024 → (HasTable (cleared s₁.mem table q) s₁.dir k g ↔
        HasTable s₁.mem s₁.dir k g) := fun k g hk => hasTable_cleared hd hk
    intro k g hk hg
    exact ih (s := { s₁ with pool := pool, mem := cleared s₁.mem table q })
      ((hdir _ _ (by norm_num)).mpr hself)
      (fun k' g' hk' hg' => htables k' g' hk' ((hdir _ _ (by omega)).mp hg')) (by omega) hrun k g hk
      ((hdir k g hk).mpr hg)

end Taken

/-! ## Putting and taking back -/

section RoundTrip
variable {s t : State} {p : PoolType} {q n : Nat} {is : List Nat}

/-- The directory is none of the tables. -/
theorem Put.dir (h : Put s t p q n is) (hs : Wired s q n) {k g : Nat} (hk : k < 1024) :
    HasTable t.mem s.dir k g ↔ HasTable s.mem s.dir k g := by
  apply leads_entry
  apply h.entries _ _ hk
  intro hp
  obtain ⟨m, hq, hn, ht, -⟩ := hp
  have hlow := hs.low
  exact hs.tabled.tables _ _ (by omega) ht rfl

/-- Entries at which nothing lay lead nowhere again, and the others were left alone. -/
theorem TakenBack.leads {t₁ u : State} (h : TakenBack t₁ u p q n is) (hput : Put s t p q n is)
    (hs : Wired s q n) (hmem : t₁.mem = t.mem) (hdir : t₁.dir = s.dir)
    (hvacant : ∀ m f, q ≤ m → m < q + n → ¬ Shows s.mem s.dir m f) {table j g : Nat}
    (hj : j < 1024) :
    Leads u.mem (table * pgSize + 4 * j) g ↔ Leads s.mem (table * pgSize + 4 * j) g := by
  have hplace : Place t₁.mem t₁.dir q n table j ↔ Place s.mem s.dir q n table j := by
    rw [hmem, hdir]
    exact place_congr hs.low fun k g hk => hput.dir hs hk
  by_cases hp : Place s.mem s.dir q n table j
  · refine iff_of_false (h.hidden table j g (hplace.mpr hp)) ?_
    intro hl
    obtain ⟨m, hq, hn, ht, rfl⟩ := hp
    exact hvacant m g hq hn ⟨table, ht, hl⟩
  · apply leads_entry
    rw [h.entries table j hj fun hp' => hp (hplace.mp hp'), hmem, hput.entries table j hj hp]

/-- Bits that were clear are clear again. -/
theorem setFrames_undo (hclear : ∀ i ∈ is, (s.pool p).poolBitmap.getValue i = false)
    (ht : t.pool = s.setFrames p is true) : t.setFrames p is false = s.pool := by
  unfold State.setFrames at *
  rw [ht, Function.update_idem, Function.update_self]
  dsimp only
  rw [Bitmap.setAll_undo hclear]
  exact Function.update_eq_self p s.pool

/-- What the first loop puts the second takes back, whatever happens to the maps of the addresses in
between. -/
theorem putPages_undo (hs : Wired s q n) (ht : AllTables s.mem s.dir q n)
    (hsep : Separate s.mem s.dir q n)
    (hvacant : ∀ m f, q ≤ m → m < q + n → ¬ Shows s.mem s.dir m f)
    (hclear : (s.pool p).poolBitmap.firstClear n = some is) :
    ∃ t, putPages p n (q * pgSize) s = .ok (true, t) ∧ Moved s t ∧
      ∀ t₁, t₁.mem = t.mem → t₁.dir = s.dir → t₁.pool = t.pool →
        ∃ u, freePages p n (q * pgSize) t₁ = .ok ((), u) ∧
          (∃ mem, u = { t₁ with mem := mem, pool := s.pool }) ∧
          ∀ m f, m < 2 ^ 20 → (Shows u.mem s.dir m f ↔ Shows s.mem s.dir m f) := by
  obtain ⟨hlen, hall⟩ := Bitmap.firstClear_spec hclear
  obtain ⟨t, hrun, hput⟩ := putPages_all hs ht hsep hclear
  refine ⟨t, hrun, hput.moved, ?_⟩
  intro t₁ hmem hdir hpool
  have hp : t₁.pool p = { s.pool p with poolBitmap := (s.pool p).poolBitmap.setAll true is } := by
    rw [hpool, hput.pool]
    exact Function.update_self ..
  have hback := freePages_all (s := t₁) (p := p) (q := q)
    (by
      rw [hmem, hdir]
      exact (hput.dir hs (by norm_num)).mpr hs.tabled.self)
    (by
      rw [hmem, hdir]
      intro k g hk hg
      exact hs.tabled.tables k g hk ((hput.dir hs (by omega)).mp hg))
    (by
      rw [hlen]
      exact hs.low)
    (by
      rw [hp]
      exact (hs.tabled.pools p).1)
    (by
      intro i hi
      rw [hp, Bitmap.setAll_length]
      exact (hall i hi).1)
    (by
      rw [hmem, hdir, hlen]
      exact hsep.congr hs.low fun k g hk => hput.dir hs hk)
    (by
      rw [hmem, hdir, hp]
      exact hput.shows)
  rw [hlen] at hback
  obtain ⟨u, hfree, htaken⟩ := hback
  obtain ⟨mem, hu⟩ := htaken.state
  rw [setFrames_undo (fun i hi => (hall i hi).2) (hpool.trans hput.pool)] at hu
  refine ⟨u, hfree, ⟨mem, hu⟩, ?_⟩
  intro m f hm
  have hleads : ∀ table j g, j < 1024 → (Leads u.mem (table * pgSize + 4 * j) g ↔
      Leads s.mem (table * pgSize + 4 * j) g) :=
    fun table j g hj => htaken.leads hput hs hmem hdir hvacant hj
  constructor
  · intro hshow
    obtain ⟨table, hpde, hpte⟩ := hshow
    exact ⟨table, (hleads _ _ _ (by omega)).mp hpde, (hleads _ _ _ (by omega)).mp hpte⟩
  · intro hshow
    obtain ⟨table, hpde, hpte⟩ := hshow
    exact ⟨table, (hleads _ _ _ (by omega)).mpr hpde, (hleads _ _ _ (by omega)).mpr hpte⟩

end RoundTrip

end Frog.Mm
