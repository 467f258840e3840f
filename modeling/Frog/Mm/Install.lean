import Frog.Mm.Tables

/-!
# Page tables that are put in

`put_page` and `put_page_and_flush` on any state of the pools, below the addresses of the tables. A
missing table is asked of the pool of the kernel, which may be empty.
-/

namespace Frog.Mm

set_option autoImplicit false
open Bytes Prog
open Fs (u32 u32Sub)

/-- What a call that puts a page at page `n` of the addresses may do to the tables of directory `d`:
a table is put in only if its page was taken for it, the tables in use keep all entries but that of
page `n`, and no page that was handed out comes to lie at two addresses. -/
structure Sound (d n : Nat) (s t : State) : Prop where
  installed : ∀ k f, k < 1024 → HasTable t.mem d k f →
    HasTable s.mem d k f ∨ f ≠ 0 ∧ Free s .kernel f ∧ HandedOut t f
  kept : ∀ k f, k < 1024 → HasTable s.mem d k f → HasTable t.mem d k f
  entries : ∀ k f, k < 1023 → HasTable s.mem d k f → ∀ j, j < 1024 →
    entry t.mem f j = entry s.mem f j ∨ HasTable s.mem d (n / 1024) f ∧ j = n % 1024
  unshared : ∀ m m' f, Below m → Below m' → m ≠ m' → HandedOut t f → Shows t.mem d m f →
    Shows t.mem d m' f → Shows s.mem d m f ∧ Shows s.mem d m' f

/-- A page of memory for page `n` of the addresses: it is not free, and if it comes from a pool it lies
nowhere else. -/
structure Fresh (s : State) (n f : Nat) : Prop where
  lt : (f + 1) * pgSize ≤ 2 ^ 32
  taken : ∀ p, ¬ Free s p f
  alone : HandedOut s f → ∀ m, Below m → m ≠ n → ¬ Shows s.mem s.dir m f

/-- There is a table for page `n` and no other entry of the directory leads to it, unless the page comes
from no pool. -/
def OwnTable (s : State) (n f : Nat) : Prop :=
  ∃ table, HasTable s.mem s.dir (n / 1024) table ∧
    (HandedOut s f → ∀ k, k < 1023 → k ≠ n / 1024 → ¬ HasTable s.mem s.dir k table)

/-- There is no table for page `n`, and a page for one. -/
def NewTable (s : State) (n : Nat) : Prop :=
  (∀ table, ¬ HasTable s.mem s.dir (n / 1024) table) ∧ ∃ f, Free s .kernel f

/-! ## Below the tables -/

section BelowTables
variable {s s₀ t : State} {n f table F d : Nat}

theorem leads_entry {mem mem' : Store} {p j g : Nat} (h : entry mem' p j = entry mem p j) :
    Leads mem' (p * pgSize + 4 * j) g ↔ Leads mem (p * pgSize + 4 * j) g := by
  change entry mem' p j % 2 = 1 ∧ entry mem' p j / pgSize = g ↔
    entry mem p j % 2 = 1 ∧ entry mem p j / pgSize = g
  rw [h]

theorem leads_entryOf_iff {mem : Store} {p j g : Nat} (h : entry mem p j = entryOf (f * pgSize)) :
    Leads mem (p * pgSize + 4 * j) g ↔ g = f := by
  change entry mem p j % 2 = 1 ∧ entry mem p j / pgSize = g ↔ g = f
  rw [h, (entryOf_leads f).2]
  exact ⟨fun hg => hg.2.symm, fun hg => ⟨(entryOf_leads f).1, hg.symm⟩⟩

theorem not_leads_zero {mem : Store} {p j g : Nat} (h : entry mem p j = 0) :
    ¬ Leads mem (p * pgSize + 4 * j) g := by
  intro hg
  have hset : entry mem p j % 2 = 1 := hg.1
  rw [h] at hset
  cases hset

/-- A store into a table leaves the directory alone. -/
theorem hasTable_withPage {mem : Store} {k g : Nat} (hf : (f + 1) * pgSize ≤ 2 ^ 32) (hd : d ≠ table)
    (hk : k < 1024) : HasTable (withPage mem table n f) d k g ↔ HasTable mem d k g :=
  leads_entry (by rw [entry_withPage hf hk, if_neg fun h => hd h.1])

/-- What a page shows is what it showed, unless its entry was stored. -/
theorem shows_withPage {mem : Store} {m g : Nat} (hf : (f + 1) * pgSize ≤ 2 ^ 32) (hd : d ≠ table)
    (hm : Below m) : Shows (withPage mem table n f) d m g ↔
      if HasTable mem d (m / 1024) table ∧ m % 1024 = n % 1024 then g = f else Shows mem d m g := by
  have hk : m / 1024 < 1024 := by
    unfold Below at hm
    omega
  have hj : m % 1024 < 1024 := Nat.mod_lt _ (by norm_num)
  by_cases hc : HasTable mem d (m / 1024) table ∧ m % 1024 = n % 1024
  · rw [if_pos hc]
    have hent : entry (withPage mem table n f) table (m % 1024) = entryOf (f * pgSize) := by
      rw [entry_withPage hf hj, if_pos ⟨rfl, hc.2⟩]
    constructor
    · rintro ⟨table', hpde, hpte⟩
      cases ((hasTable_withPage hf hd hk).mp hpde).2.symm.trans hc.1.2
      exact (leads_entryOf_iff hent).mp hpte
    · intro hg
      exact ⟨table, (hasTable_withPage hf hd hk).mpr hc.1, (leads_entryOf_iff hent).mpr hg⟩
  · rw [if_neg hc]
    have hsame : ∀ table', HasTable mem d (m / 1024) table' →
        entry (withPage mem table n f) table' (m % 1024) = entry mem table' (m % 1024) := by
      intro table' h
      rw [entry_withPage hf hj, if_neg]
      rintro ⟨rfl, hmod⟩
      exact hc ⟨h, hmod⟩
    constructor
    · rintro ⟨table', hpde, hpte⟩
      have hpde' := (hasTable_withPage hf hd hk).mp hpde
      exact ⟨table', hpde', (leads_entry (hsame table' hpde')).mp hpte⟩
    · rintro ⟨table', hpde, hpte⟩
      exact ⟨table', (hasTable_withPage hf hd hk).mpr hpde,
        (leads_entry (hsame table' hpde)).mpr hpte⟩

/-- The page that was just taken. -/
theorem fresh_setFrame {p : PoolType} {i : Nat} (hs : Tabled s) (hF : FrameOf s p i F) (hfree : Free s p F)
    (hlt : (F + 1) * pgSize ≤ 2 ^ 32) : Fresh (s.setFrame p i true) n F where
  lt := hlt
  taken q hq := by
    obtain ⟨⟨j, hj, -⟩, hne⟩ := (free_setFrame hF).mp hq
    cases p <;> cases q
    · exact hne ⟨rfl, rfl⟩
    · exact hs.apart i j F hF hj
    · exact hs.apart j i F hj hF
    · exact hne ⟨rfl, rfl⟩
  alone _ m hm _ := (hs.free p F hfree).2.2 m hm

/-- What of the old state the call is compared with: memory is the same, and no more pages are free. -/
structure Start (s₀ s : State) : Prop where
  mem : s₀.mem = s.mem
  free : ∀ g, Free s .kernel g → Free s₀ .kernel g

theorem below_iff (hn : Below n) : n < 2 ^ 20 ∧ n / 1024 < 1023 ∧ n % 1024 < 1024 ∧
    n / 1024 * 1024 + n % 1024 = n := by
  unfold Below at hn
  omega

/-- The table of page `n` gets the page, and no other page shows it. -/
theorem sound_old (hs : Tabled s) (h₀ : Start s₀ s) (hf : Fresh s n f) (hn : Below n)
    (ht : HasTable s.mem s.dir (n / 1024) table) (hmem : t.mem = withPage s.mem table n f)
    (hpool : t.pool = s.pool) : Sound s.dir n s₀ t ↔
      (HandedOut s f → ∀ k, k < 1023 → k ≠ n / 1024 → ¬ HasTable s.mem s.dir k table) := by
  obtain ⟨hn20, hk, hj, hdiv⟩ := below_iff hn
  have hd : s.dir ≠ table := Ne.symm (hs.tables _ _ hk ht)
  have hout : ∀ g, HandedOut t g ↔ HandedOut s g := by
    intro g
    unfold HandedOut FrameOf
    rw [hpool]
  constructor
  · intro h hh k hk' hne htk
    have hm : Below (k * 1024 + n % 1024) := by
      unfold Below
      omega
    have hshow : Shows t.mem s.dir n f := by
      rw [hmem, shows_withPage hf.lt hd hn, if_pos ⟨ht, rfl⟩]
    have hshow' : Shows t.mem s.dir (k * 1024 + n % 1024) f := by
      rw [hmem, shows_withPage hf.lt hd hm, if_pos]
      refine ⟨?_, by omega⟩
      rw [show (k * 1024 + n % 1024) / 1024 = k by omega]
      exact htk
    have hboth := h.unshared n (k * 1024 + n % 1024) f hn hm (by omega) ((hout f).mpr hh) hshow hshow'
    rw [h₀.mem] at hboth
    exact hf.alone hh _ hm (by omega) hboth.2
  · intro hown
    constructor
    · intro k g hk' hg
      rw [hmem, hasTable_withPage hf.lt hd hk'] at hg
      rw [h₀.mem]
      exact .inl hg
    · intro k g hk' hg
      rw [h₀.mem] at hg
      rw [hmem]
      exact (hasTable_withPage hf.lt hd hk').mpr hg
    · intro k g hk' hg j hj'
      rw [h₀.mem, hmem, entry_withPage hf.lt hj']
      by_cases he : g = table ∧ j = n % 1024
      · exact .inr ⟨he.1 ▸ ht, he.2⟩
      · exact .inl (if_neg he)
    · intro m m' g hm hm' hne hh hg hg'
      rw [hout] at hh
      rw [h₀.mem]
      -- a page that shows `g` now is page `n`, or it showed `g` before
      have hcase : ∀ m, Below m → Shows t.mem s.dir m g → (m = n ∧ g = f) ∨ Shows s.mem s.dir m g := by
        intro m hm hg
        rw [hmem, shows_withPage hf.lt hd hm] at hg
        by_cases hc : HasTable s.mem s.dir (m / 1024) table ∧ m % 1024 = n % 1024
        · rw [if_pos hc] at hg
          obtain ⟨-, hk', -, hdiv'⟩ := below_iff hm
          have hsame : m / 1024 = n / 1024 := by
            by_contra hother
            exact hown (hg ▸ hh) _ hk' hother hc.1
          exact .inl ⟨by omega, hg⟩
        · rw [if_neg hc] at hg
          exact .inr hg
      rcases hcase m hm hg with ⟨rfl, rfl⟩ | hold
      · rcases hcase m' hm' hg' with ⟨rfl, -⟩ | hold'
        · exact absurd rfl hne
        · exact absurd hold' (hf.alone hh m' hm' (Ne.symm hne))
      · rcases hcase m' hm' hg' with ⟨rfl, rfl⟩ | hold'
        · exact absurd hold (hf.alone hh m hm hne)
        · exact ⟨hold, hold'⟩

/-- A new table is cleared: what lies behind it is page `n` alone. -/
theorem entry_new {mem : Store} {p j : Nat} (hF : (F + 1) * pgSize ≤ 2 ^ 32)
    (hf : (f + 1) * pgSize ≤ 2 ^ 32) (hn : n < 2 ^ 20) (hj : j < 1024) :
    entry (withPage (withTable mem d n F) F n f) p j =
      if p = F then if j = n % 1024 then entryOf (f * pgSize) else 0
      else if p = d ∧ j = n / 1024 then entryOf (F * pgSize) else entry mem p j := by
  rw [entry_withPage hf hj, entry_withTable hF hn hj]
  by_cases hp : p = F
  · simp only [hp, true_and, if_true]
  · simp only [hp, false_and, if_false]

/-- Only the entry of page `n` leads to the new table. -/
theorem dir_new {mem : Store} {k g : Nat} (hF : (F + 1) * pgSize ≤ 2 ^ 32)
    (hf : (f + 1) * pgSize ≤ 2 ^ 32) (hn : n < 2 ^ 20) (hd : d ≠ F) (hk : k < 1024) :
    HasTable (withPage (withTable mem d n F) F n f) d k g ↔
      if k = n / 1024 then g = F else HasTable mem d k g := by
  have hent : entry (withPage (withTable mem d n F) F n f) d k = _ := entry_new hF hf hn hk
  rw [if_neg hd] at hent
  by_cases he : k = n / 1024
  · rw [if_pos ⟨rfl, he⟩] at hent
    rw [if_pos he]
    exact leads_entryOf_iff hent
  · rw [if_neg fun h => he h.2] at hent
    rw [if_neg he]
    exact leads_entry hent

/-- A page shows what it showed, or it lies behind the new table, at the place of page `n`. -/
theorem shows_new {mem : Store} {m g : Nat} (hF : (F + 1) * pgSize ≤ 2 ^ 32)
    (hf : (f + 1) * pgSize ≤ 2 ^ 32) (hn : n < 2 ^ 20) (hd : d ≠ F) (hm : Below m)
    (htables : ∀ k g, k < 1023 → HasTable mem d k g → g ≠ d)
    (h : Shows (withPage (withTable mem d n F) F n f) d m g) :
    (HasTable (withPage (withTable mem d n F) F n f) d (m / 1024) F ∧ m % 1024 = n % 1024 ∧ g = f) ∨
      Shows mem d m g := by
  obtain ⟨table, hpde, hpte⟩ := h
  obtain ⟨-, hk, hj, -⟩ := below_iff hm
  have hent : entry (withPage (withTable mem d n F) F n f) table (m % 1024) = _ :=
    entry_new hF hf hn hj
  by_cases htF : table = F
  · subst htF
    rw [if_pos rfl] at hent
    by_cases hmod : m % 1024 = n % 1024
    · rw [if_pos hmod] at hent
      exact .inl ⟨hpde, hmod, (leads_entryOf_iff hent).mp hpte⟩
    · rw [if_neg hmod] at hent
      exact absurd hpte (not_leads_zero hent)
  · rw [if_neg htF] at hent
    have hold := (dir_new hF hf hn hd (by omega)).mp hpde
    by_cases he : m / 1024 = n / 1024
    · rw [if_pos he] at hold
      exact absurd hold htF
    · rw [if_neg he] at hold
      rw [if_neg fun h => htables _ _ hk hold h.1] at hent
      exact .inr ⟨table, hold, (leads_entry hent).mp hpte⟩

theorem sound_new (hs : Tabled s) (h₀ : Start s₀ s) (hf : Fresh s n f) (hn : Below n)
    (ht : ∀ table, ¬ HasTable s.mem s.dir (n / 1024) table) (hF : Free s .kernel F)
    (hF0 : F ≠ 0 ∧ (F + 1) * pgSize ≤ 2 ^ 32) (hout : ∀ g, HandedOut t g ↔ g = F ∨ HandedOut s g)
    (hmem : t.mem = withPage (withTable s.mem s.dir n F) F n f) : Sound s.dir n s₀ t := by
  obtain ⟨hn20, hk, hj, hdiv⟩ := below_iff hn
  obtain ⟨hFd, hFt, hFs⟩ := hs.free _ _ hF
  have hdir : ∀ k g, k < 1024 → (HasTable t.mem s.dir k g ↔
      if k = n / 1024 then g = F else HasTable s.mem s.dir k g) := by
    intro k g hk'
    rw [hmem]
    exact dir_new hF0.2 hf.lt hn20 (Ne.symm hFd) hk'
  constructor
  · intro k g hk' hg
    rw [h₀.mem]
    rw [hdir k g hk'] at hg
    by_cases he : k = n / 1024
    · rw [if_pos he] at hg
      rw [hg]
      exact .inr ⟨hF0.1, h₀.free _ hF, (hout F).mpr (.inl rfl)⟩
    · rw [if_neg he] at hg
      exact .inl hg
  · intro k g hk' hg
    rw [h₀.mem] at hg
    rw [hdir k g hk', if_neg]
    · exact hg
    · rintro rfl
      exact ht g hg
  · intro k g hk' hg j hj'
    rw [h₀.mem] at hg
    have hgF : g ≠ F := by
      rintro rfl
      exact hFt k hk' hg
    rw [h₀.mem, hmem, entry_new hF0.2 hf.lt hn20 hj', if_neg hgF,
      if_neg fun h => hs.tables k g hk' hg h.1]
    exact .inl rfl
  · intro m m' g hm hm' hne hh hg hg'
    rw [h₀.mem]
    -- a page that shows `g` now is page `n`, or it showed `g` before
    have hcase : ∀ m, Below m → Shows t.mem s.dir m g → (m = n ∧ g = f) ∨ Shows s.mem s.dir m g := by
      intro m hm hg
      obtain ⟨-, hk', -, hdiv'⟩ := below_iff hm
      rw [hmem] at hg
      rcases shows_new hF0.2 hf.lt hn20 (Ne.symm hFd) hm hs.tables hg with ⟨htF, hmod, hgf⟩ | hold
      · rw [← hmem, hdir _ _ (by omega)] at htF
        by_cases he : m / 1024 = n / 1024
        · exact .inl ⟨by omega, hgf⟩
        · rw [if_neg he] at htF
          exact absurd htF (hFt _ hk')
      · exact .inr hold
    have hfF : f ≠ F := by
      rintro rfl
      exact hf.taken _ hF
    have hhf : g = f → HandedOut s f := by
      rintro rfl
      exact ((hout g).mp hh).resolve_left hfF
    rcases hcase m hm hg with ⟨rfl, hgf⟩ | hold
    · rcases hcase m' hm' hg' with ⟨rfl, -⟩ | hold'
      · exact absurd rfl hne
      · exact absurd (hgf ▸ hold') (hf.alone (hhf hgf) m' hm' (Ne.symm hne))
    · rcases hcase m' hm' hg' with ⟨rfl, hgf⟩ | hold'
      · exact absurd (hgf ▸ hold) (hf.alone (hhf hgf) m hm hne)
      · exact ⟨hold, hold'⟩

/-- Without a page for the table, page zero becomes one. -/
theorem not_sound_new (h₀ : Start s₀ s) (hd : s.dir ≠ 0) (hf : (f + 1) * pgSize ≤ 2 ^ 32) (hn : Below n)
    (ht : ∀ table, ¬ HasTable s.mem s.dir (n / 1024) table)
    (hmem : t.mem = withPage (withTable s.mem s.dir n 0) 0 n f) : ¬ Sound s.dir n s₀ t := by
  intro h
  obtain ⟨hn20, hk, -, -⟩ := below_iff hn
  have hzero : HasTable t.mem s.dir (n / 1024) 0 := by
    apply (leads_entryOf_iff ?_).mpr rfl
    rw [hmem, entry_new (by norm_num [pgSize]) hf hn20 (by omega), if_neg hd, if_pos ⟨rfl, rfl⟩]
  have hinst := h.installed _ _ (by omega) hzero
  rw [h₀.mem] at hinst
  rcases hinst with hold | ⟨hne, -⟩
  · exact ht 0 hold
  · exact hne rfl

theorem putEntry_below {flush : M Unit} {v : Nat} (hs : Tabled s) (h₀ : Start s₀ s)
    (hflush : Reloads s flush) (hv : v < 2 ^ 32) (hn : Below (v / pgSize))
    (hf : Fresh s (v / pgSize) f) :
    wp (fun _ => False) (putEntry flush v (f * pgSize)) (fun _ t => Sound s.dir (v / pgSize) s₀ t) s ↔
      OwnTable s (v / pgSize) f ∨ NewTable s (v / pgSize) := by
  by_cases ht : ∃ table, HasTable s.mem s.dir (v / pgSize / 1024) table
  · obtain ⟨table, ht⟩ := ht
    obtain ⟨cr3, hrun⟩ := putEntry_old hs hflush (f := f) hv hn ht
    have hsound := sound_old (t := { s with mem := withPage s.mem table (v / pgSize) f, cr3 := cr3 })
      hs h₀ hf hn ht rfl rfl
    rw [wp_of_ok hrun, hsound]
    constructor
    · intro hown
      exact .inl ⟨table, ht, hown⟩
    · rintro (⟨table', ht', hown⟩ | hnew)
      · rwa [← ht.2.symm.trans ht'.2] at hown
      · exact absurd ht (hnew.1 table)
  · have hno : ∀ table, ¬ HasTable s.mem s.dir (v / pgSize / 1024) table :=
      fun table h => ht ⟨table, h⟩
    cases hfind : (s.pool .kernel).poolBitmap.findBlock 1 with
    | none =>
      have hg : getFreePage .kernel s = .ok (0 * pgSize, { s with pool := s.pool }) := by
        rw [Nat.zero_mul]
        exact getFreePage_none hfind
      have hrun : putEntry flush v (f * pgSize) s = _ :=
        putEntry_new hs hv hn hno hg (by norm_num [pgSize]) hs.dir
      rw [wp_of_ok hrun]
      refine iff_of_false (not_sound_new h₀ hs.dir hf.lt hn hno rfl) ?_
      rintro (⟨table, ht', -⟩ | ⟨-, g, hg⟩)
      · exact hno table ht'
      · exact free_none hfind hg
    | some i =>
      obtain ⟨F, hF, hfree, h0, hlt, hg⟩ := getFreePage_first hs hfind
      have hrun : putEntry flush v (f * pgSize) s = _ :=
        putEntry_new hs hv hn hno hg hlt (Ne.symm (hs.free _ _ hfree).1)
      rw [wp_of_ok hrun]
      refine iff_of_true ?_ (.inr ⟨hno, F, hfree⟩)
      exact sound_new hs h₀ hf hn hno hfree ⟨h0, hlt⟩ (fun g => handedOut_setFrame hF) rfl

end BelowTables

end Frog.Mm
