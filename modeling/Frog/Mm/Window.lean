import Frog.Mm.Install

/-!
# Pages put at the addresses of the tables

There the entry that is stored is one of the directory, and with the last of them the directory would go
out of sight while it is stored byte by byte.
-/

namespace Frog.Mm

set_option autoImplicit false
open Bytes Prog
open Fs (u32 u32Sub)

/-! ## The last entry of the directory -/

section Last
variable {s t : State} {v f : Nat}

/-- Byte `k` of the entry at `a`, as far as it says where the entry leads, is the same. -/
def SameByte (mem mem' : Store) (a : Nat) : Nat → Prop
  | 0 => (mem' a).toNat % 2 = 1
  | 1 => (mem' (a + 1)).toNat / 16 = (mem (a + 1)).toNat / 16
  | k + 2 => mem' (a + (k + 2)) = mem (a + (k + 2))

theorem SameByte.congr {mem mem₁ mem₂ : Store} {a k : Nat} (h : SameByte mem mem₁ a k)
    (he : mem₂ (a + k) = mem₁ (a + k)) : SameByte mem mem₂ a k := by
  match k with
  | 0 =>
    unfold SameByte at *
    rw [show mem₂ a = mem₁ a from he]
    exact h
  | 1 =>
    unfold SameByte at *
    rw [he]
    exact h
  | k + 2 => exact he.trans h

theorem le32_bytes (mem : Store) (a : Nat) : le32 mem a = (mem a).toNat + 256 * (mem (a + 1)).toNat +
    65536 * (mem (a + 2)).toNat + 16777216 * (mem (a + 3)).toNat := by
  have h₃ : a + 2 + 1 = a + 3 := rfl
  unfold le32 le16
  rw [h₃]
  omega

theorem leads_bytes {mem mem' : Store} {a d : Nat} (h : Leads mem a d) :
    Leads mem' a d ↔ ∀ k, k < 4 → SameByte mem mem' a k := by
  have h₀ := (mem a).isLt
  have h₁ := (mem (a + 1)).isLt
  have h₂ := (mem (a + 2)).isLt
  have h₃ := (mem (a + 3)).isLt
  have h₀' := (mem' a).isLt
  have h₁' := (mem' (a + 1)).isLt
  have h₂' := (mem' (a + 2)).isLt
  have h₃' := (mem' (a + 3)).isLt
  obtain ⟨hset, hto⟩ := h
  rw [le32_bytes] at hset hto
  unfold pgSize at hto
  constructor
  · intro h
    obtain ⟨hset', hto'⟩ := h
    rw [le32_bytes] at hset' hto'
    unfold pgSize at hto'
    intro k hk
    match k with
    | 0 =>
      change (mem' a).toNat % 2 = 1
      omega
    | 1 =>
      change (mem' (a + 1)).toNat / 16 = _
      omega
    | 2 =>
      apply BitVec.eq_of_toNat_eq
      change (mem' (a + 2)).toNat = (mem (a + 2)).toNat
      omega
    | 3 =>
      apply BitVec.eq_of_toNat_eq
      change (mem' (a + 3)).toNat = (mem (a + 3)).toNat
      omega
  · intro hb
    have hb₀ : (mem' a).toNat % 2 = 1 := hb 0 (by norm_num)
    have hb₁ : (mem' (a + 1)).toNat / 16 = (mem (a + 1)).toNat / 16 := hb 1 (by norm_num)
    have hb₂ : mem' (a + 2) = mem (a + 2) := hb 2 (by norm_num)
    have hb₃ : mem' (a + 3) = mem (a + 3) := hb 3 (by norm_num)
    unfold Leads pgSize
    rw [le32_bytes, hb₂, hb₃]
    omega

theorem storeByte_moves {a : Nat} {b : Byte} (h : storeByte a b s = .ok ((), t)) :
    ∃ p, translate s.mem s.cr3 (u32 a) = some p ∧ p % pgSize = u32 a % pgSize ∧
      t = { s with mem := Function.update s.mem p b } := by
  obtain ⟨s', s₁, hg, h⟩ := bind_eq_ok.mp h
  cases hg
  obtain ⟨p, s₂, hp, h⟩ := bind_eq_ok.mp h
  cases h
  cases htr : translate s.mem s.cr3 (u32 a) with
  | none =>
    rw [htr] at hp
    cases hp
  | some p' =>
    rw [htr] at hp
    cases hp
    refine ⟨p, rfl, ?_, rfl⟩
    unfold translate at htr
    dsimp only at htr
    split at htr
    · cases htr
      unfold pgSize
      omega
    · cases htr

/-- If the entry leads where it did in the end, it did so all the time, and was stored. -/
theorem storeBytes_last {src : Store} {len : Nat} (hself : HasTable s.mem s.dir 1023 s.dir)
    (hv : v = 0xfffffffc) (hlen : len ≤ 4) (h : storeBytes v src len s = .ok ((), t)) :
    t.cr3 = s.cr3 ∧
      (∀ k, len ≤ k → k < 4 →
        t.mem (s.dir * pgSize + 4 * 1023 + k) = s.mem (s.dir * pgSize + 4 * 1023 + k)) ∧
      ((∀ k, k < len → SameByte s.mem t.mem (s.dir * pgSize + 4 * 1023) k) →
        ∀ k, k < len → t.mem (s.dir * pgSize + 4 * 1023 + k) = src k) := by
  induction len generalizing t with
  | zero =>
    cases h
    exact ⟨rfl, fun k _ _ => rfl, fun _ k hk => absurd hk (Nat.not_lt_zero k)⟩
  | succ len ih =>
    obtain ⟨_, u, hu, h⟩ := bind_eq_ok.mp h
    obtain ⟨hcr3, hrest, hsrc⟩ := ih (by omega) hu
    obtain ⟨p, htr, hoff, rfl⟩ := storeByte_moves h
    rw [Fs.u32_of_lt (by omega)] at htr hoff
    have hother : ∀ k, k < 4 → k ≠ len → Function.update u.mem p (src len)
        (s.dir * pgSize + 4 * 1023 + k) = u.mem (s.dir * pgSize + 4 * 1023 + k) := by
      intro k hk hne
      apply Function.update_of_ne
      unfold pgSize at *
      omega
    refine ⟨hcr3, ?_, ?_⟩
    · intro k hk hk'
      exact (hother k hk' (by omega)).trans (hrest k (by omega) hk')
    · intro hsame
      have hsame_u : ∀ k, k < 4 → SameByte s.mem u.mem (s.dir * pgSize + 4 * 1023) k := by
        intro k hk
        by_cases hkl : k < len
        · exact (hsame k (by omega)).congr (hother k hk (by omega)).symm
        · exact ((leads_bytes hself).mp hself k hk).congr (hrest k (by omega) hk)
      have hself_u : HasTable u.mem s.dir 1023 s.dir := (leads_bytes hself).mpr hsame_u
      have hat : translate u.mem u.cr3 (v + len) = some (s.dir * pgSize + 4 * 1023 + len) := by
        have hpage : (v + len) / pgSize = 0xfffff := by
          unfold pgSize
          omega
        have hoff : (v + len) % pgSize = 4 * 1023 + len := by
          unfold pgSize
          omega
        rw [hcr3, translate_eq (hpage.symm ▸ maps_directory hself_u) rfl, hoff, Nat.add_assoc]
      intro k hk
      by_cases hkl : k = len
      · subst hkl
        rw [hat] at htr
        cases htr
        exact Function.update_self ..
      · exact (hother k (by omega) hkl).trans
          (hsrc (fun i hi => hsame_u i (by omega)) k (by omega))

/-- The entry that is stored may be that of the directory itself, which has to stay. -/
theorem store_last (hself : HasTable s.mem s.dir 1023 s.dir) (hf : (f + 1) * pgSize ≤ 2 ^ 32)
    (h : store32 0xfffffffc (entryOf (f * pgSize)) s = .ok ((), t))
    (ht : HasTable t.mem s.dir 1023 s.dir) : f = s.dir := by
  obtain ⟨-, -, hsrc⟩ := storeBytes_last hself rfl (by norm_num) h
  have hent := hsrc ((leads_bytes hself).mp ht)
  exact ((leads_entryOf hf hent).2.symm.trans ht.2)

end Last

/-! ## The tables' own addresses -/

section Window
variable {s t : State} {flush : M Unit} {v n f : Nat}

/-- The page is already what the entry of the directory leads to. -/
def OwnEntry (s : State) (n f : Nat) : Prop := HasTable s.mem s.dir (n % 1024) f

theorem store_window (hself : HasTable s.mem s.dir 1023 s.dir) (hv : v < 2 ^ 32)
    (hn : ¬ Below (v / pgSize)) (h : v / pgSize % 1024 = 1023 → f = s.dir) :
    store32 (ptePtr v) (entryOf (f * pgSize)) s =
      .ok ((), { s with mem := withPage s.mem s.dir (v / pgSize) f }) := by
  have hpage : ptePtr v / pgSize = 0xfffff := by
    rw [ptePtr_page]
    unfold Below pgSize at *
    omega
  by_cases hlast : v / pgSize % 1024 = 1023
  · cases h hlast
    have hd : (s.dir + 1) * pgSize ≤ 2 ^ 32 := by
      have hw := le32_lt s.mem (s.dir * pgSize + 4 * 1023)
      have he := hself.2
      unfold pgSize at *
      omega
    have hleads : HasTable (withPage s.mem s.dir (v / pgSize) s.dir) s.dir 1023 s.dir := by
      apply (leads_entryOf_iff ?_).mpr rfl
      rw [entry_withPage hd (by norm_num), if_pos ⟨rfl, hlast.symm⟩]
    have hsame := (leads_bytes hself).mp hleads
    have hoff : ptePtr v % pgSize = 4 * 1023 := by
      rw [ptePtr_off, hlast]
    have hr : storeBytes (ptePtr v) (leByte (entryOf (s.dir * pgSize))) 4 s = _ := storeBytes_self hpage
      (by rw [hoff]; norm_num [pgSize]) (by
        -- a part of the entry is the old one and a part the new one
        intro k hk
        rw [hoff]
        apply (leads_bytes hself).mpr
        intro i hi
        by_cases hik : i < k
        · apply (hsame i hi).congr
          unfold withPage
          rw [hlast, patch_in (by omega), patch_in (by omega)]
        · apply ((leads_bytes hself).mp hself i hi).congr
          apply patch_out
          omega)
    rw [hoff] at hr
    unfold withPage
    rw [hlast]
    exact hr
  · exact store_dir hself hpage ptePtr_off (by omega)

theorem putEntry_window (hs : Tabled s) (hflush : Reloads s flush) (hv : v < 2 ^ 32)
    (hn : ¬ Below (v / pgSize)) (hf : Fresh s (v / pgSize) f) :
    wp (fun _ => False) (putEntry flush v (f * pgSize)) (fun _ t => Sound s.dir (v / pgSize) s t) s ↔
      OwnEntry s (v / pgSize) f := by
  have hidx : v / pgSize / 1024 = 1023 := by
    unfold Below pgSize at *
    omega
  have hj : v / pgSize % 1024 < 1024 := Nat.mod_lt _ (by norm_num)
  have hpde := load_pde hs.self hv
  have hpte := load_pte (t := s.dir) hs.self hv (by rw [hidx]; exact hs.self)
  rw [hidx] at hpde
  constructor
  · intro h
    obtain ⟨_, t, hrun, hsound⟩ := ok_of_wp h
    unfold putEntry at hrun
    rw [bind_ok hpde, if_pos hs.self.1, bind_ok hpte] at hrun
    obtain ⟨_, u, hstore, hreload⟩ := bind_eq_ok.mp hrun
    have hmem := (hflush.keeps _ _ hreload).1
    by_cases hlast : v / pgSize % 1024 = 1023
    · have hptr : ptePtr v = 0xfffffffc := by
        unfold ptePtr pgSize at *
        omega
      have ht := hsound.kept 1023 s.dir (by norm_num) hs.self
      rw [hmem] at ht
      rw [hptr] at hstore
      unfold OwnEntry
      rw [hlast, store_last hs.self hf.lt hstore ht]
      exact hs.self
    · rw [store_window hs.self hv hn fun h => absurd h hlast] at hstore
      cases hstore
      have ht : HasTable t.mem s.dir (v / pgSize % 1024) f := by
        rw [hmem]
        apply (leads_entryOf_iff ?_).mpr rfl
        rw [entry_withPage hf.lt hj, if_pos ⟨rfl, rfl⟩]
      rcases hsound.installed _ _ hj ht with hold | ⟨-, hfree, -⟩
      · exact hold
      · exact absurd hfree (hf.taken _)
  · intro hown
    have hent : ∀ p j g, j < 1024 → (Leads (withPage s.mem s.dir (v / pgSize) f) (p * pgSize + 4 * j) g ↔
        Leads s.mem (p * pgSize + 4 * j) g) := by
      intro p j g hj'
      by_cases hp : p = s.dir ∧ j = v / pgSize % 1024
      · have hnew : entry (withPage s.mem s.dir (v / pgSize) f) p j = entryOf (f * pgSize) := by
          rw [entry_withPage hf.lt hj', if_pos hp]
        rw [leads_entryOf_iff hnew, hp.1, hp.2]
        exact ⟨fun hg => hg ▸ hown, fun hg => hg.2.symm.trans hown.2⟩
      · exact leads_entry (by rw [entry_withPage hf.lt hj', if_neg hp])
    have hstore := store_window hs.self hv hn (f := f) (by
      intro hlast
      unfold OwnEntry at hown
      rw [hlast] at hown
      exact hown.2.symm.trans hs.self.2)
    obtain ⟨cr3, hr⟩ := hflush.runs (withPage s.mem s.dir (v / pgSize) f)
      ((hent _ _ _ (by norm_num)).mpr hs.self) fun k g hk hg => ⟨g, (hent _ _ _ hk).mpr hg⟩
    have hrun : putEntry flush v (f * pgSize) s =
        .ok ((), { s with mem := withPage s.mem s.dir (v / pgSize) f, cr3 := cr3 }) := by
      unfold putEntry
      rw [bind_ok hpde, if_pos hs.self.1, bind_ok hpte, bind_ok hstore]
      exact hr
    rw [wp_of_ok hrun]
    have hshow : ∀ m g, Below m → Shows (withPage s.mem s.dir (v / pgSize) f) s.dir m g →
        Shows s.mem s.dir m g := by
      intro m g hm hg
      obtain ⟨-, hk, hj', -⟩ := below_iff hm
      obtain ⟨table, hpde', hpte'⟩ := hg
      exact ⟨table, (hent _ _ _ (by omega)).mp hpde', (hent _ _ _ hj').mp hpte'⟩
    constructor
    · intro k g hk hg
      exact .inl ((hent _ _ _ hk).mp hg)
    · intro k g hk hg
      exact (hent _ _ _ hk).mpr hg
    · intro k g hk hg j hj'
      rw [entry_withPage hf.lt hj', if_neg fun h => hs.tables k g hk hg h.1]
      exact .inl rfl
    · intro m m' g hm hm' _ _ hg hg'
      exact ⟨hshow m g hm hg, hshow m' g hm' hg'⟩

end Window

end Frog.Mm
