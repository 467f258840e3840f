import Frog.Mm.Window

/-!
# Only allocated pages become tables

When that holds of `put_page`, `put_page_and_flush` and `malloc_page_with_vaddr`.
-/

namespace Frog.Mm

set_option autoImplicit false
open Bytes Prog
open Fs (u32 u32Sub)

/-! ## The three calls -/

section Calls
variable {s : State} {p : PoolType} {v n f : Nat} {α : Type}

/-- The call returns, and what it does to the tables is sound. -/
def InstallsOnly (n : Nat) (m : M α) (s : State) : Prop :=
  wp (fun _ => False) m (fun _ t => Sound s.dir n s t) s

/-- What a page needs at page `n` of the addresses. -/
def Room (s : State) (n f : Nat) : Prop :=
  Below n ∧ (OwnTable s n f ∨ NewTable s n) ∨ ¬ Below n ∧ OwnEntry s n f

/-- `malloc_page_with_vaddr` takes the address: its pool is that of the running thread, and the address
has a bit. -/
def Accepts (s : State) (p : PoolType) (v : Nat) : Prop :=
  ((s.tcb s.cur).pgdir = 0 ∧ p = .kernel ∨ (s.tcb s.cur).pgdir ≠ 0 ∧ p = .user) ∧
    u32Sub v (s.addresses p).vaddrStart / pgSize < (s.addresses p).vaddrBitmap.mapBytesLength * 8

/-- The pool of the page is empty, or there is a page and what page `n` needs besides. -/
def RoomWithPage (s : State) (p : PoolType) (n : Nat) : Prop :=
  (∀ g, ¬ Free s p g) ∨
    (∃ table, HasTable s.mem s.dir (n / 1024) table ∧
      ∀ k, k < 1023 → k ≠ n / 1024 → ¬ HasTable s.mem s.dir k table) ∨
    (∀ table, ¬ HasTable s.mem s.dir (n / 1024) table) ∧
      ∃ g g', g ≠ g' ∧ Free s p g ∧ Free s .kernel g'

theorem putEntry_iff {flush : M Unit} (hs : Tabled s) (hflush : Reloads s flush) (hv : v < 2 ^ 32)
    (hf : Fresh s (v / pgSize) f) :
    InstallsOnly (v / pgSize) (putEntry flush v (f * pgSize)) s ↔ Room s (v / pgSize) f := by
  unfold Room InstallsOnly
  by_cases hn : Below (v / pgSize)
  · rw [putEntry_below hs ⟨rfl, fun _ h => h⟩ hflush hv hn hf]
    constructor
    · intro h
      exact .inl ⟨hn, h⟩
    · rintro (h | h)
      · exact h.2
      · exact absurd hn h.1
  · rw [putEntry_window hs hflush hv hn hf]
    constructor
    · intro h
      exact .inr ⟨hn, h⟩
    · rintro (h | h)
      · exact absurd h.1 hn
      · exact h.2

/-- The address is marked before the page is taken. -/
theorem mallocPageWithVaddr_accepts (h : Accepts s p v) :
    ∃ b, mallocPageWithVaddr p v s = (getFreePage p >>= fun phyaddrs =>
      if phyaddrs = 0 then pure 0 else (putPage v phyaddrs >>= fun _ => pure v)) (s.withMap p b) := by
  obtain ⟨hpool, hbit⟩ := h
  have hidx : u32Sub v (s.addresses p).vaddrStart / pgSize < 2 ^ 31 := by
    unfold u32Sub pgSize
    omega
  refine ⟨(s.addresses p).vaddrBitmap.setValue
    (u32Sub v (s.addresses p).vaddrStart / pgSize) true, ?_⟩
  unfold mallocPageWithVaddr
  rw [bind_ok (rfl : runningThread s = .ok (s.tcb s.cur, s)), check_bind hpool, bind_ok viraddr_ok]
  rw [check_bind hidx, bind_ok (setValueBitmap_ok hbit true), bind_ok (setVaddrBitmap_ok _)]

/-- Otherwise one of the assertions fails. -/
theorem mallocPageWithVaddr_refuses (h : ¬ Accepts s p v) :
    mallocPageWithVaddr p v s = .error .panic := by
  unfold mallocPageWithVaddr
  rw [bind_ok (rfl : runningThread s = .ok (s.tcb s.cur, s))]
  by_cases hpool : (s.tcb s.cur).pgdir = 0 ∧ p = .kernel ∨ (s.tcb s.cur).pgdir ≠ 0 ∧ p = .user
  · rw [check_bind hpool, bind_ok viraddr_ok]
    have hidx : u32Sub v (s.addresses p).vaddrStart / pgSize < 2 ^ 31 := by
      unfold u32Sub pgSize
      omega
    rw [check_bind hidx]
    apply bind_error
    unfold setValueBitmap
    apply bind_error
    unfold check
    rw [if_neg fun hbit => h ⟨hpool, hbit⟩]
    rfl
  · apply bind_error
    unfold check
    rw [if_neg hpool]
    rfl

theorem room_setFrame {i F : Nat} (hs : Tabled s) (hF : FrameOf s p i F) (hfree : Free s p F)
    (hn : Below n) : Room (s.setFrame p i true) n F ↔ RoomWithPage s p n := by
  have hout : HandedOut (s.setFrame p i true) F := (handedOut_setFrame hF).mpr (.inl rfl)
  have hspare : (∃ g, Free (s.setFrame p i true) .kernel g) ↔
      ∃ g g', g ≠ g' ∧ Free s p g ∧ Free s .kernel g' := by
    constructor
    · rintro ⟨g, hg⟩
      obtain ⟨hold, hne⟩ := (free_setFrame hF).mp hg
      refine ⟨F, g, ?_, hfree, hold⟩
      rintro rfl
      obtain ⟨j, hj, -⟩ := hold
      cases p with
      | kernel => exact hne ⟨rfl, rfl⟩
      | user => exact hs.apart j i _ hj hF
    · rintro ⟨g, g', hne, hg, hg'⟩
      by_cases he : g' = F
      · subst he
        refine ⟨g, (free_setFrame hF).mpr ?_⟩
        obtain ⟨j, hj, -⟩ := hg'
        cases p with
        | kernel => exact ⟨hg, fun h => hne h.2⟩
        | user => exact absurd hF (hs.apart j i _ hj)
      · exact ⟨g', (free_setFrame hF).mpr ⟨hg', fun h => he h.2⟩⟩
  unfold Room RoomWithPage OwnTable NewTable
  rw [hspare]
  constructor
  · rintro (⟨-, hown | hnew⟩ | h)
    · obtain ⟨table, ht, hown⟩ := hown
      exact .inr (.inl ⟨table, ht, hown hout⟩)
    · exact .inr (.inr hnew)
    · exact absurd hn h.1
  · rintro (hnone | hown | hnew)
    · exact absurd hfree (hnone F)
    · obtain ⟨table, ht, hown⟩ := hown
      exact .inl ⟨hn, .inl ⟨table, ht, fun _ => hown⟩⟩
    · exact .inl ⟨hn, .inr hnew⟩

/-- The addresses of the maps end below the tables. -/
theorem below_of_accepts (h : Accepts s p v) (hv : v < 2 ^ 32)
    (htop : (s.addresses p).vaddrStart + (s.addresses p).vaddrBitmap.mapBytesLength * 8 * pgSize ≤
      0xffc00000) : Below (v / pgSize) := by
  have hbit := h.2
  unfold u32Sub Below pgSize at *
  omega

/-- Where memory is as it was the tables are. -/
theorem sound_of_mem {t : State} {d : Nat} (h : t.mem = s.mem) : Sound d n s t := by
  constructor
  · intro k g _ hg
    rw [h] at hg
    exact .inl hg
  · intro k g _ hg
    rw [h]
    exact hg
  · intro k g _ _ j _
    rw [h]
    exact .inl rfl
  · intro m m' g _ _ _ _ hg hg'
    rw [h] at hg hg'
    exact ⟨hg, hg'⟩

theorem mallocPageWithVaddr_iff (hs : Tabled s) (hv : v < 2 ^ 32)
    (hpgdir : Reached s (s.tcb s.cur).pgdir) (h : Accepts s p v)
    (htop : (s.addresses p).vaddrStart + (s.addresses p).vaddrBitmap.mapBytesLength * 8 * pgSize ≤
      0xffc00000) :
    InstallsOnly (v / pgSize) (mallocPageWithVaddr p v) s ↔ RoomWithPage s p (v / pgSize) := by
  have hn := below_of_accepts h hv htop
  obtain ⟨b, hrun⟩ := mallocPageWithVaddr_accepts h
  have hs₁ : Tabled (s.withMap p b) := hs.withMap b
  have hpool : (s.withMap p b).pool = s.pool := withMap_pool b
  have hmem : (s.withMap p b).mem = s.mem := withMap_mem b
  have hdir : (s.withMap p b).dir = s.dir := withMap_dir b
  have hroom : RoomWithPage (s.withMap p b) p (v / pgSize) ↔ RoomWithPage s p (v / pgSize) := by
    cases p <;> exact Iff.rfl
  have hpgdir₁ := withMap_pgdir (s := s) (p := p) b
  rw [← hroom]
  generalize s.withMap p b = s₁ at *
  unfold InstallsOnly
  rw [wp_of_run hrun]
  cases hfind : (s₁.pool p).poolBitmap.findBlock 1 with
  | none =>
    rw [wp_bind, wp_of_ok (getFreePage_none hfind), if_pos rfl, wp_pure]
    exact iff_of_true (sound_of_mem hmem) (.inl fun g => free_none hfind)
  | some i =>
    obtain ⟨F, hF, hfree, h0, hlt, hg⟩ := getFreePage_first hs₁ hfind
    have hne : F * pgSize ≠ 0 := Nat.mul_ne_zero h0 (by norm_num [pgSize])
    have hreach : Reached (s₁.setFrame p i true) (s₁.tcb s₁.cur).pgdir := by
      rw [hpgdir₁]
      rcases hpgdir with hz | ⟨hl, f, hf⟩
      · exact .inl hz
      · refine .inr ⟨hl, f, ?_⟩
        change HasTable s₁.mem s₁.dir _ f
        rw [hmem, hdir]
        exact hf
    have hstart : Start s (s₁.setFrame p i true) := by
      refine ⟨hmem.symm, fun g hg => ?_⟩
      obtain ⟨j, hj, hclear⟩ := ((free_setFrame hF).mp hg).1
      unfold FrameOf at hj
      rw [hpool] at hj hclear
      exact ⟨j, hj, hclear⟩
    have hiff := putEntry_below (hs₁.setFrame hF) hstart
      (invalidate_reloads hreach) hv hn (fresh_setFrame hs₁ hF hfree hlt)
    have hdir' : (s₁.setFrame p i true).dir = s.dir := hdir
    rw [hdir'] at hiff
    rw [wp_bind, wp_of_ok hg, if_neg hne, wp_bind, ← room_setFrame hs₁ hF hfree hn]
    simp only [wp_pure]
    unfold putPage
    rw [hiff]
    unfold Room
    constructor
    · intro hown
      exact .inl ⟨hn, hown⟩
    · rintro (hown | hown)
      · exact hown.2
      · exact absurd hn hown.1

/-- Only allocated pages become tables, no table in use is lost and no page that was handed out is
shared exactly when page `n` of the addresses has a table of its own, or there is a page for a new one. -/
theorem installs_iff (hs : Tabled s) (hv : v < 2 ^ 32) :
    (∀ f, Fresh s (v / pgSize) f →
      (Reached s (s.tcb s.cur).pgdir →
        (InstallsOnly (v / pgSize) (putPage v (f * pgSize)) s ↔ Room s (v / pgSize) f)) ∧
      ∀ pgdir, Reached s pgdir →
        (InstallsOnly (v / pgSize) (putPageAndFlush v (f * pgSize) pgdir) s ↔
          Room s (v / pgSize) f)) ∧
    ∀ p, Reached s (s.tcb s.cur).pgdir →
      (s.addresses p).vaddrStart + (s.addresses p).vaddrBitmap.mapBytesLength * 8 * pgSize ≤
        0xffc00000 →
      (¬ Accepts s p v → mallocPageWithVaddr p v s = .error .panic) ∧
      (Accepts s p v →
        (InstallsOnly (v / pgSize) (mallocPageWithVaddr p v) s ↔ RoomWithPage s p (v / pgSize))) := by
  constructor
  · intro f hf
    exact ⟨fun hreach => putEntry_iff hs (invalidate_reloads hreach) hv hf,
      fun pgdir hreach => putEntry_iff hs (flushCr3_reloads hreach) hv hf⟩
  · intro p hreach htop
    exact ⟨mallocPageWithVaddr_refuses, fun h => mallocPageWithVaddr_iff hs hv hreach h htop⟩

end Calls

/-! ## A directory without tables -/

/-- The directory at 1 MB leads to nothing but itself. The pool of the user is used up, `bits` is the map
of that of the kernel. -/
def bare (bits : Byte) : State :=
  { noPages with
    mem := withPage (Function.update (fun _ => 0) 8 1) 0x100 1023 0x100
    cr3 := 0x100000
    tcb := fun a => { noPages.tcb a with pgdir := 0 }
    pool := fun p => match p with
      | .kernel => ⟨⟨fun _ => bits, 1⟩, 0x201000, 8 * pgSize⟩
      | .user => ⟨⟨fun _ => 0xff, 1⟩, 0x209000, 8 * pgSize⟩ }

theorem bare_hasTable {bits : Byte} {k g : Nat} (hk : k < 1024) :
    HasTable (bare bits).mem 0x100 k g ↔ k = 1023 ∧ g = 0x100 := by
  have hent : entry (bare bits).mem 0x100 k = if 0x100 = 0x100 ∧ k = 1023 % 1024
      then entryOf (0x100 * pgSize) else entry (Function.update (fun _ => 0) 8 1) 0x100 k :=
    entry_withPage (by norm_num [pgSize]) hk
  by_cases hlast : k = 1023
  · rw [if_pos ⟨rfl, hlast⟩] at hent
    rw [HasTable, leads_entryOf_iff hent]
    exact (and_iff_right hlast).symm
  · rw [if_neg fun h => hlast h.2] at hent
    refine iff_of_false (fun h => ?_) fun h => hlast h.1
    have hzero : entry (Function.update (fun _ => 0) 8 1) 0x100 k = 0 := by
      apply le32_zero
      intro i hi
      exact Function.update_of_ne (by unfold pgSize; omega) ..
    exact not_leads_zero (hent.trans hzero) h

theorem bare_shows {bits : Byte} {m g : Nat} (hm : Below m) : ¬ Shows (bare bits).mem 0x100 m g := by
  rintro ⟨table, hpde, -⟩
  obtain ⟨-, hk, -, -⟩ := below_iff hm
  have hlast := ((bare_hasTable (by omega)).mp hpde).1
  omega

theorem bare_dir (bits : Byte) : (bare bits).dir = 0x100 := by
  change 0x100000 / pgSize = 0x100
  norm_num [pgSize]

theorem bare_frameOf {bits : Byte} {p : PoolType} {i f : Nat} (h : FrameOf (bare bits) p i f) :
    i < 8 ∧ f = (match p with | .kernel => 0x201 | .user => 0x209) + i := by
  obtain ⟨hlt, hat⟩ := h
  cases p with
  | kernel =>
    have hbase : 0x201000 / pgSize = 0x201 := by norm_num [pgSize]
    exact ⟨hlt, hat.trans (congrArg (· + i) hbase)⟩
  | user =>
    have hbase : 0x209000 / pgSize = 0x209 := by norm_num [pgSize]
    exact ⟨hlt, hat.trans (congrArg (· + i) hbase)⟩

theorem bare_tabled (bits : Byte) : Tabled (bare bits) := by
  constructor
  · rw [bare_dir]
    exact (bare_hasTable (by norm_num)).mpr ⟨rfl, rfl⟩
  · rw [bare_dir]
    norm_num
  · intro k f hk hf
    rw [bare_dir] at hf
    have hlast := ((bare_hasTable (by omega)).mp hf).1
    omega
  · intro p f hf
    rw [bare_dir]
    obtain ⟨i, hi, -⟩ := hf
    obtain ⟨hlt, hat⟩ := bare_frameOf hi
    refine ⟨?_, ?_, fun m hm => bare_shows hm⟩
    · cases p <;> (dsimp only at hat; omega)
    · intro k hk hf
      have hlast := ((bare_hasTable (by omega)).mp hf).1
      omega
  · intro p
    cases p <;> norm_num [bare, pgSize]
  · intro i j f hi hj
    have h₁ := bare_frameOf hi
    have h₂ := bare_frameOf hj
    dsimp only at h₁ h₂
    omega

/-- The first page of the user's pool. -/
theorem bare_fresh (bits : Byte) : Fresh (bare bits) 0x8000 0x209 := by
  constructor
  · norm_num [pgSize]
  · intro p hp
    obtain ⟨i, hi, hclear⟩ := hp
    obtain ⟨hlt, hat⟩ := bare_frameOf hi
    cases p with
    | kernel =>
      dsimp only at hat
      omega
    | user =>
      have hset : ((bare bits).pool .user).poolBitmap.getValue i = true :=
        Bitmap.ff_getLsbD (Nat.mod_lt i (by norm_num))
      rw [hset] at hclear
      cases hclear
  · intro _ m hm _
    rw [bare_dir]
    exact bare_shows hm

/-- With no page left for a table, page zero becomes one and is cleared. -/
theorem page_zero_installed : Tabled (bare 0xff) ∧ Fresh (bare 0xff) 0x8000 0x209 ∧
    ∃ t, putPage 0x08000000 (0x209 * pgSize) (bare 0xff) = .ok ((), t) ∧
      HasTable t.mem (bare 0xff).dir 32 0 ∧ (bare 0xff).mem 8 = 1 ∧ t.mem 8 = 0 := by
  refine ⟨bare_tabled _, bare_fresh _, ?_⟩
  have hpage : 0x08000000 / pgSize = 0x8000 := by norm_num [pgSize]
  have hno : ∀ table, ¬ HasTable (bare 0xff).mem (bare 0xff).dir (0x08000000 / pgSize / 1024) table := by
    intro table h
    rw [bare_dir, hpage] at h
    cases ((bare_hasTable (by norm_num)).mp h).1
  have hfind : ((bare 0xff).pool .kernel).poolBitmap.findBlock 1 = none := by decide
  have hg : getFreePage .kernel (bare 0xff) =
      .ok (0 * pgSize, { bare 0xff with pool := (bare 0xff).pool }) := by
    rw [Nat.zero_mul]
    exact getFreePage_none hfind
  refine ⟨_, putEntry_new (f := 0x209) (bare_tabled _) (by norm_num) (by rw [hpage]; norm_num [Below])
    hno hg (by norm_num [pgSize]) (bare_tabled _).dir, ?_, ?_, ?_⟩
  · rw [hpage]
    apply (leads_entryOf_iff ?_).mpr rfl
    rw [bare_dir, entry_new (by norm_num [pgSize]) (by norm_num [pgSize]) (by norm_num) (by norm_num),
      if_neg (by norm_num), if_pos ⟨rfl, rfl⟩]
  · change withPage (Function.update (fun _ => 0) 8 1) 0x100 1023 0x100 8 = 1
    unfold withPage
    rw [patch_out (by norm_num [pgSize])]
    exact Function.update_self ..
  · rw [hpage]
    change withPage (withTable (bare 0xff).mem (bare 0xff).dir 0x8000 0) 0 0x8000 0x209 8 = 0
    unfold withPage withTable
    rw [patch_out (by norm_num), patch_in (by norm_num [pgSize])]

theorem installs_bare : ¬ InstallsOnly 0x8000 (putPage 0x08000000 (0x209 * pgSize)) (bare 0xff) ∧
    InstallsOnly 0x8000 (putPage 0x08000000 (0x209 * pgSize)) (bare 0xfe) := by
  have hpage : 0x08000000 / pgSize = 0x8000 := by norm_num [pgSize]
  have hiff : ∀ bits, InstallsOnly 0x8000 (putPage 0x08000000 (0x209 * pgSize)) (bare bits) ↔
      Room (bare bits) 0x8000 0x209 := by
    intro bits
    have h := ((installs_iff (v := 0x08000000) (bare_tabled bits) (by norm_num)).1 0x209
      (hpage.symm ▸ bare_fresh bits)).1 (.inl rfl)
    rw [hpage] at h
    exact h
  have hno : ∀ bits table, ¬ HasTable (bare bits).mem (bare bits).dir (0x8000 / 1024) table := by
    intro bits table h
    rw [bare_dir] at h
    cases ((bare_hasTable (by norm_num)).mp h).1
  rw [hiff, hiff]
  constructor
  · rintro (⟨-, ⟨table, h, -⟩ | ⟨-, g, hg⟩⟩ | ⟨h, -⟩)
    · exact hno _ table h
    · exact free_none (by decide) hg
    · exact h (by norm_num [Below])
  · refine .inl ⟨by norm_num [Below], .inr ⟨hno _, 0x201, 0, ⟨by decide, ?_⟩, by decide⟩⟩
    norm_num [bare, pgSize]

end Frog.Mm
