import Frog.Mm.Install

/-!
# The loop of `malloc_page`

Page after page is taken from the pool and put at the next address. The directory in use stays in use,
and it loses no table.
-/

namespace Frog.Mm

set_option autoImplicit false
open Bytes Prog
open Fs (u32 u32Sub)

/-- Only memory, the pools and `cr3` may differ, and the directory is the same. -/
def Moved (s t : State) : Prop :=
  t.dir = s.dir ∧ ∃ mem cr3 pool, t = { s with mem := mem, cr3 := cr3, pool := pool }

/-- The directory of the running thread is the one in use, and none of the pages from `q` to `q + n` is
where it is seen. -/
def Returns (s : State) (q n : Nat) : Prop :=
  (s.tcb s.cur).pgdir = 0 ∧ s.dir = 0x100 ∨
    (s.tcb s.cur).pgdir ≠ 0 ∧ (s.tcb s.cur).pgdir < 2 ^ 32 ∧ Below ((s.tcb s.cur).pgdir / pgSize) ∧
      ∃ table, table ≠ 0 ∧ Maps s.mem s.dir ((s.tcb s.cur).pgdir / pgSize) table s.dir ∧
        ∀ m, q ≤ m → m < q + n → HasTable s.mem s.dir (m / 1024) table →
          m % 1024 ≠ (s.tcb s.cur).pgdir / pgSize % 1024

/-- What the loop relies on while the pages from `q` to `q + n` are still to be put. -/
structure Wired (s : State) (q n : Nat) : Prop where
  tabled : Tabled s
  low : q + n ≤ 0xffc00
  thread : Returns s q n

section Step
variable {s t : State} {p : PoolType} {q n i F : Nat}

theorem Moved.trans {u : State} (h : Moved s t) (h' : Moved t u) : Moved s u := by
  obtain ⟨hd, mem, cr3, pool, rfl⟩ := h
  obtain ⟨hd', mem', cr3', pool', rfl⟩ := h'
  exact ⟨hd'.trans hd, mem', cr3', pool', rfl⟩

theorem Wired.below (hs : Wired s q (n + 1)) :
    Below q ∧ q * pgSize < 2 ^ 32 ∧ q * pgSize / pgSize = q ∧ q < 2 ^ 20 ∧ q / 1024 < 1023 := by
  have hlow := hs.low
  refine ⟨?_, ?_, Nat.mul_div_cancel q (by norm_num [pgSize]), ?_, ?_⟩
  · unfold Below
    omega
  · unfold pgSize
    omega
  · omega
  · omega

/-- What is left of the run is behind the first page. -/
theorem Returns.tail (h : Returns s q (n + 1)) : Returns s (q + 1) n := by
  rcases h with h0 | ⟨hne, hlt, hb, table, h0, hm, hother⟩
  · exact .inl h0
  · exact .inr ⟨hne, hlt, hb, table, h0, hm, fun m hq hn => hother m (by omega) (by omega)⟩

theorem Wired.setFrame (hs : Wired s q n) (hF : FrameOf s p i F) : Wired (s.setFrame p i true) q n :=
  ⟨hs.tabled.setFrame hF, hs.low, hs.thread⟩

/-- In a table that is there the page is put, and the directory is loaded again. -/
theorem putPage_table {table : Nat} (hs : Wired s q (n + 1)) (hf : Fresh s q F)
    (ht : HasTable s.mem s.dir (q / 1024) table) :
    ∃ cr3, putPage (q * pgSize) (F * pgSize) s =
        .ok ((), { s with mem := withPage s.mem table q F, cr3 := cr3 }) ∧
      cr3 / pgSize = s.dir ∧
      Wired { s with mem := withPage s.mem table q F, cr3 := cr3 } (q + 1) n := by
  obtain ⟨hb, hv, hdiv, -, hk⟩ := hs.below
  have hd : s.dir ≠ table := Ne.symm (hs.tabled.tables _ _ hk ht)
  have hself : HasTable (withPage s.mem table q F) s.dir 1023 s.dir :=
    hs.tabled.self.congr (withPage_dir hd) (by norm_num)
  have hthread : (s.tcb s.cur).pgdir = 0 ∧ s.dir = 0x100 ∨
      (s.tcb s.cur).pgdir ≠ 0 ∧ (s.tcb s.cur).pgdir < 2 ^ 32 ∧ Below ((s.tcb s.cur).pgdir / pgSize) ∧
        ∃ table', table' ≠ 0 ∧
          Maps (withPage s.mem table q F) s.dir ((s.tcb s.cur).pgdir / pgSize) table' s.dir ∧
          ∀ m, q + 1 ≤ m → m < q + 1 + n →
            HasTable (withPage s.mem table q F) s.dir (m / 1024) table' →
            m % 1024 ≠ (s.tcb s.cur).pgdir / pgSize % 1024 := by
    rcases hs.thread with h0 | ⟨hne, hlt, hbt, table', h0, hm, hother⟩
    · exact .inl h0
    · obtain ⟨-, hkt, hjt, -⟩ := below_iff hbt
      refine .inr ⟨hne, hlt, hbt, table', h0, ⟨hm.pde.congr (withPage_dir hd) (by omega), ?_⟩, ?_⟩
      · apply (leads_entry ?_).mpr hm.pte
        rw [entry_withPage hf.lt hjt, if_neg]
        rintro ⟨rfl, hmod⟩
        exact hother q (Nat.le_refl q) (by omega) ht hmod.symm
      · intro m hqm hmn htm
        have hlow := hs.low
        exact hother m (by omega) (by omega) ((hasTable_withPage hf.lt hd (by omega)).mp htm)
  obtain ⟨cr3, hinv, hcr3⟩ := invalidate_ok (s := { s with mem := withPage s.mem table q F }) hself (by
    rcases hthread with h0 | ⟨hne, hlt, -, table', -, hm, -⟩
    · exact .inl h0
    · exact .inr ⟨hne, hlt, table', hm⟩)
  have hrun : putEntry invalidate (q * pgSize) (F * pgSize) s = _ :=
    putEntry_table hs.tabled hv (hdiv.symm ▸ hb) (hdiv.symm ▸ ht)
  rw [hdiv] at hrun
  have hdir : ({ s with mem := withPage s.mem table q F, cr3 := cr3 } : State).dir = s.dir := hcr3
  refine ⟨cr3, hrun.trans hinv, hcr3, ⟨?_, ?_, ?_, ?_, hs.tabled.pools, hs.tabled.apart⟩, ?_, ?_⟩
  · rw [hdir]
    exact hself
  · rw [hdir]
    exact hs.tabled.dir
  · intro k g hk' hg
    rw [hdir] at hg ⊢
    exact hs.tabled.tables k g hk' ((hasTable_withPage hf.lt hd (by omega)).mp hg)
  · intro p' g hg
    rw [hdir]
    obtain ⟨hgd, hgt, hgs⟩ := hs.tabled.free p' g hg
    refine ⟨hgd, fun k hk' hk'' => hgt k hk' ((hasTable_withPage hf.lt hd (by omega)).mp hk''), ?_⟩
    intro m hm hshow
    rw [shows_withPage hf.lt hd hm] at hshow
    by_cases hc : HasTable s.mem s.dir (m / 1024) table ∧ m % 1024 = q % 1024
    · rw [if_pos hc] at hshow
      exact hf.taken p' (hshow ▸ hg)
    · rw [if_neg hc] at hshow
      exact hgs m hm hshow
  · have hlow := hs.low
    omega
  · unfold Returns
    rw [hdir]
    exact hthread

/-- With a new table, too: it may be page zero, which is a table of no page before the run. -/
theorem putPage_new {G : Nat} {pool : PoolType → Pool} (hs : Wired s q (n + 1)) (hf : Fresh s q F)
    (ht : ∀ table, ¬ HasTable s.mem s.dir (q / 1024) table)
    (hg : getFreePage .kernel s = .ok (G * pgSize, { s with pool := pool }))
    (hG : (G + 1) * pgSize ≤ 2 ^ 32) (hd : s.dir ≠ G) (h0 : G = 0 ∨ Free s .kernel G)
    (hpool : Tabled { s with pool := pool })
    (hfree : ∀ p g, Free { s with pool := pool } p g → Free s p g ∧ g ≠ G) :
    ∃ mem, putPage (q * pgSize) (F * pgSize) s = .ok ((), { s with pool := pool, mem := mem }) ∧
      Wired { s with pool := pool, mem := mem } (q + 1) n ∧ HasTable mem s.dir (q / 1024) G ∧
      ∀ k g, k < 1024 → HasTable s.mem s.dir k g → HasTable mem s.dir k g := by
  obtain ⟨hb, hv, hdiv, hq, hk⟩ := hs.below
  let mem := withPage (withTable s.mem s.dir q G) G q F
  have hdir : ∀ k g, k < 1024 → (HasTable mem s.dir k g ↔
      if k = q / 1024 then g = G else HasTable s.mem s.dir k g) :=
    fun k g hk' => dir_new hG hf.lt hq hd hk'
  have hkeep : ∀ k g, k < 1024 → HasTable s.mem s.dir k g → HasTable mem s.dir k g := by
    intro k g hk' hg
    rw [hdir k g hk', if_neg]
    · exact hg
    · rintro rfl
      exact ht g hg
  have hold : ∀ k g, k < 1024 → HasTable mem s.dir k g → g = G ∨ HasTable s.mem s.dir k g := by
    intro k g hk' hg
    rw [hdir k g hk'] at hg
    by_cases he : k = q / 1024
    · rw [if_pos he] at hg
      exact .inl hg
    · rw [if_neg he] at hg
      exact .inr hg
  have hrun : putEntry invalidate (q * pgSize) (F * pgSize) s = _ :=
    putEntry_new hs.tabled hv (hdiv.symm ▸ hb) (hdiv.symm ▸ ht) hg hG hd
  rw [hdiv] at hrun
  refine ⟨mem, hrun, ⟨⟨hkeep _ _ (by norm_num) hs.tabled.self, hs.tabled.dir, ?_, ?_, hpool.pools,
    hpool.apart⟩, ?_, ?_⟩, ?_, hkeep⟩
  · intro k g hk' hg'
    rcases hold k g (by omega) hg' with rfl | hg'
    · exact Ne.symm hd
    · exact hs.tabled.tables k g hk' hg'
  · intro p g hg'
    obtain ⟨hgs, hgG⟩ := hfree p g hg'
    obtain ⟨hgd, hgt, hgm⟩ := hs.tabled.free p g hgs
    refine ⟨hgd, ?_, ?_⟩
    · intro k hk' htk
      rcases hold k g (by omega) htk with rfl | htk
      · exact hgG rfl
      · exact hgt k hk' htk
    · intro m hm hshow
      rcases shows_new hG hf.lt hq hd hm hs.tabled.tables hshow with ⟨-, -, rfl⟩ | hshow
      · exact hf.taken p hgs
      · exact hgm m hm hshow
  · have hlow := hs.low
    omega
  · rcases hs.thread with h00 | ⟨hne, hlt, hbt, table', h0', hm, hother⟩
    · exact .inl h00
    · obtain ⟨-, hkt, hjt, -⟩ := below_iff hbt
      have htG : table' ≠ G := by
        rintro rfl
        rcases h0 with h0 | h0
        · exact h0' h0
        · exact (hs.tabled.free _ _ h0).2.1 _ hkt hm.pde
      refine .inr ⟨hne, hlt, hbt, table', h0', ⟨hkeep _ _ (Nat.lt_succ_of_lt hkt) hm.pde, ?_⟩, ?_⟩
      · apply (leads_entry ?_).mpr hm.pte
        change entry (withPage (withTable s.mem s.dir q G) G q F) _ _ = _
        rw [entry_new hG hf.lt hq hjt, if_neg htG,
          if_neg fun h => hs.tabled.tables _ _ hkt hm.pde h.1]
      · intro m hqm hmn htm
        have hlow := hs.low
        rcases hold _ _ (by omega) htm with h | h
        · exact absurd h htG
        · exact hother m (by omega) (by omega) h
  · rw [hdir _ _ (by omega), if_pos rfl]

/-- One page of the run, whatever the tables are. -/
theorem putPages_step (hs : Wired s q (n + 1)) (hfind : (s.pool p).poolBitmap.findBlock 1 = some i) :
    ∃ t, putPages p (n + 1) (q * pgSize) s = putPages p n ((q + 1) * pgSize) t ∧ Moved s t ∧
      Wired t (q + 1) n ∧ (∃ table, HasTable t.mem s.dir (q / 1024) table) ∧
      ∀ k g, k < 1024 → HasTable s.mem s.dir k g → HasTable t.mem s.dir k g := by
  obtain ⟨F, hF, hfree, h0, hlt, hg⟩ := getFreePage_first hs.tabled hfind
  have hne : F * pgSize ≠ 0 := Nat.mul_ne_zero h0 (by norm_num [pgSize])
  have hs₁ : Wired (s.setFrame p i true) q (n + 1) := hs.setFrame hF
  have hfresh : Fresh (s.setFrame p i true) q F := fresh_setFrame hs.tabled hF hfree hlt
  have hnext : u32 (q * pgSize + pgSize) = (q + 1) * pgSize := by
    have hlow := hs.low
    rw [Fs.u32_of_lt (by unfold pgSize; omega), Nat.add_mul, Nat.one_mul]
  have hstep : ∀ t, putPage (q * pgSize) (F * pgSize) (s.setFrame p i true) = .ok ((), t) →
      putPages p (n + 1) (q * pgSize) s = putPages p n ((q + 1) * pgSize) t := by
    intro t ht
    rw [putPages, bind_ok hg, if_neg hne, bind_ok ht, hnext]
  by_cases ht : ∃ table, HasTable s.mem s.dir (q / 1024) table
  · obtain ⟨table, ht⟩ := ht
    obtain ⟨hb, -, -, -, hk⟩ := hs.below
    have hd : s.dir ≠ table := Ne.symm (hs.tabled.tables _ _ hk ht)
    obtain ⟨cr3, hrun, hcr3, hw⟩ := putPage_table hs₁ hfresh ht
    exact ⟨_, hstep _ hrun, ⟨hcr3, _, _, _, rfl⟩, hw,
      ⟨table, (hasTable_withPage hlt hd (by omega)).mpr ht⟩,
      fun k g hk' hg' => (hasTable_withPage hlt hd hk').mpr hg'⟩
  · have hno : ∀ table, ¬ HasTable s.mem s.dir (q / 1024) table := fun table h => ht ⟨table, h⟩
    cases hfind' : ((s.setFrame p i true).pool .kernel).poolBitmap.findBlock 1 with
    | none =>
      have hg' : getFreePage .kernel (s.setFrame p i true) =
          .ok (0 * pgSize, { s.setFrame p i true with pool := (s.setFrame p i true).pool }) := by
        rw [Nat.zero_mul]
        exact getFreePage_none hfind'
      obtain ⟨mem, hrun, hw, htab, hkeep⟩ := putPage_new hs₁ hfresh hno hg' (by norm_num [pgSize])
        hs.tabled.dir (.inl rfl) hs₁.tabled fun p' g hg'' => ⟨hg'', free_ne_zero hs₁.tabled hg''⟩
      exact ⟨_, hstep _ hrun, ⟨rfl, _, _, _, rfl⟩, hw, ⟨0, htab⟩, hkeep⟩
    | some j =>
      obtain ⟨G, hG, hGfree, -, hGlt, hg'⟩ := getFreePage_first hs₁.tabled hfind'
      have hGd : (s.setFrame p i true).dir ≠ G := Ne.symm (hs₁.tabled.free _ _ hGfree).1
      obtain ⟨mem, hrun, hw, htab, hkeep⟩ := putPage_new hs₁ hfresh hno hg' hGlt hGd (.inr hGfree)
        (hs₁.tabled.setFrame hG) (by
          intro p' g hg''
          obtain ⟨hold, hne'⟩ := (free_setFrame hG).mp hg''
          refine ⟨hold, ?_⟩
          rintro rfl
          exact (fresh_setFrame (n := q) hs₁.tabled hG hGfree hGlt).taken p' hg'')
      exact ⟨_, hstep _ hrun, ⟨rfl, _, _, _, rfl⟩, hw, ⟨G, htab⟩, hkeep⟩

/-- The loop returns. If it does not run out of pages, there is a table for each. -/
theorem putPages_wired (hs : Wired s q n) :
    ∃ b t, putPages p n (q * pgSize) s = .ok (b, t) ∧ Moved s t ∧ Tabled t ∧
      (∀ k g, k < 1024 → HasTable s.mem s.dir k g → HasTable t.mem s.dir k g) ∧
      (b = true → ∀ m, q ≤ m → m < q + n → ∃ table, HasTable t.mem s.dir (m / 1024) table) := by
  induction n generalizing s q with
  | zero =>
    refine ⟨true, s, rfl, ⟨rfl, _, _, _, rfl⟩, hs.tabled, fun k g _ h => h, ?_⟩
    intro _ m hq hn
    omega
  | succ n ih =>
    cases hfind : (s.pool p).poolBitmap.findBlock 1 with
    | none =>
      refine ⟨false, s, ?_, ⟨rfl, _, _, _, rfl⟩, hs.tabled, fun k g _ h => h, nofun⟩
      rw [putPages, bind_ok (getFreePage_none hfind)]
      rfl
    | some i =>
      obtain ⟨t, hrun, hmoved, hw, ⟨table, ht⟩, hkeep⟩ := putPages_step hs hfind
      obtain ⟨b, u, hrest, hmoved', htabled, hkeep', htables⟩ := ih hw
      rw [hmoved.1] at hkeep' htables
      refine ⟨b, u, hrun.trans hrest, hmoved.trans hmoved', htabled, ?_, ?_⟩
      · intro k g hk hg
        exact hkeep' k g hk (hkeep k g hk hg)
      · intro hb m hqm hmn
        have hlow := hs.low
        by_cases hm : m = q
        · rw [hm]
          exact ⟨table, hkeep' _ _ (by omega) ht⟩
        · exact htables hb m (by omega) (by omega)

end Step

end Frog.Mm
