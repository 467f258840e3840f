import Frog.Mm.Frames

/-!
# Pages in page tables

What loads and stores do in a page that is mapped: the entries of the directory and of the table that
lead to it lie in pages of their own, and the tables are reached through the last entry of the
directory.
-/

namespace Frog.Mm

set_option autoImplicit false
open Bytes Prog
open Fs (u32 u32Sub)

/-- The entry at `a` is set and leads to page `f`. -/
def Leads (mem : Store) (a f : Nat) : Prop := le32 mem a % 2 = 1 ∧ le32 mem a / pgSize = f

instance (mem : Store) (a f : Nat) : Decidable (Leads mem a f) :=
  inferInstanceAs (Decidable (_ ∧ _))

/-- Page `n` of the addresses is page `f` of memory, through table `t` of the directory `d`; pages are
numbered. -/
structure Maps (mem : Store) (d n t f : Nat) : Prop where
  pde : Leads mem (d * pgSize + 4 * (n / 1024)) t
  pte : Leads mem (t * pgSize + 4 * (n % 1024)) f

/-- Two memories agree on a page. -/
def SamePage (p : Nat) (mem mem' : Store) : Prop := ∀ a, a / pgSize = p → mem' a = mem a

section Maps
variable {mem mem' : Store} {d n t f a v off len : Nat} {s : State}

theorem Leads.congr {p i : Nat} (h : Leads mem (p * pgSize + 4 * i) f) (hs : SamePage p mem mem')
    (hi : i < 1024) : Leads mem' (p * pgSize + 4 * i) f := by
  have he : le32 mem' (p * pgSize + 4 * i) = le32 mem (p * pgSize + 4 * i) := by
    apply le32_congr
    intro k hk
    apply hs
    unfold pgSize
    omega
  unfold Leads
  rw [he]
  exact h

theorem Maps.congr (h : Maps mem d n t f) (hn : n < 2 ^ 20) (hd : SamePage d mem mem')
    (ht : SamePage t mem mem') : Maps mem' d n t f :=
  ⟨h.pde.congr hd (by omega), h.pte.congr ht (by omega)⟩

theorem translate_eq (h : Maps mem d (v / pgSize) t f) {cr3 : Nat} (hd : cr3 / pgSize = d) :
    translate mem cr3 v = some (f * pgSize + v % pgSize) := by
  have h22 : v / 2 ^ 22 = v / pgSize / 1024 := by
    unfold pgSize
    omega
  unfold translate
  simp only [hd, h22, h.pde.2, h.pte.2]
  rw [if_pos ⟨h.pde.1, h.pte.1⟩]

theorem samePage_patch {src : Store} {p o : Nat} (hp : p ≠ f) (ho : o + len ≤ pgSize) :
    SamePage p mem (patch mem (f * pgSize + o) len src) := by
  intro a ha
  apply patch_out
  unfold pgSize at *
  omega

/-! ## Loads -/

theorem loadBytes_ok (h : Maps s.mem (s.cr3 / pgSize) (v / pgSize) t f)
    (ho : v % pgSize + len ≤ pgSize) (hv : v + len ≤ 2 ^ 32) :
    ∃ b, loadBytes v len s = .ok (b, s) ∧ ∀ i, i < len → b i = s.mem (f * pgSize + v % pgSize + i) := by
  induction len with
  | zero => exact ⟨_, rfl, fun i hi => absurd hi (Nat.not_lt_zero i)⟩
  | succ len ih =>
    obtain ⟨b, hb, hbytes⟩ := ih (by omega) (by omega)
    have hpage : (v + len) / pgSize = v / pgSize := by
      unfold pgSize at *
      omega
    have hoff : (v + len) % pgSize = v % pgSize + len := by
      unfold pgSize at *
      omega
    have htr := translate_eq (v := v + len) (hpage ▸ h) rfl
    rw [hoff, ← Nat.add_assoc] at htr
    refine ⟨Function.update b len (s.mem (f * pgSize + v % pgSize + len)), ?_, fun i hi => ?_⟩
    · unfold loadBytes
      rw [bind_ok hb]
      have hload : loadByte (v + len) s = .ok (s.mem (f * pgSize + v % pgSize + len), s) := by
        unfold loadByte
        rw [bind_ok (get_apply s), Fs.u32_of_lt (by omega), htr]
        rfl
      rw [bind_ok hload]
      rfl
    · by_cases he : i = len
      · rw [he, Function.update_self]
      · rw [Function.update_of_ne he, hbytes i (by omega)]

theorem load32_ok (h : Maps s.mem (s.cr3 / pgSize) (v / pgSize) t f)
    (ho : v % pgSize + 4 ≤ pgSize) (hv : v + 4 ≤ 2 ^ 32) :
    load32 v s = .ok (le32 s.mem (f * pgSize + v % pgSize), s) := by
  obtain ⟨b, hb, hbytes⟩ := loadBytes_ok h ho hv
  unfold load32
  rw [bind_ok hb]
  have hw : le32 b 0 = le32 s.mem (f * pgSize + v % pgSize) :=
    le32_congr fun i hi => by rw [Nat.zero_add, hbytes i hi]
  rw [hw]
  rfl

/-! ## Stores -/

theorem patch_succ (mem src : Store) (o len : Nat) :
    patch mem o (len + 1) src = Function.update (patch mem o len src) (o + len) (src len) := by
  funext a
  unfold patch
  by_cases ha : a = o + len
  · subst ha
    rw [Function.update_self, if_pos (by omega)]
    exact congrArg src (by omega)
  · rw [Function.update_of_ne ha]
    by_cases hi : o ≤ a ∧ a < o + len
    · rw [if_pos hi, if_pos (by omega)]
    · rw [if_neg hi, if_neg (by omega)]

theorem storeBytes_ok {src : Store} (h : Maps s.mem (s.cr3 / pgSize) (v / pgSize) t f)
    (hd : s.cr3 / pgSize ≠ f) (ht : t ≠ f) (ho : v % pgSize + len ≤ pgSize) (hv : v + len ≤ 2 ^ 32) :
    storeBytes v src len s =
      .ok ((), { s with mem := patch s.mem (f * pgSize + v % pgSize) len src }) := by
  induction len with
  | zero =>
    rw [patch_zero]
    rfl
  | succ len ih =>
    have hpage : (v + len) / pgSize = v / pgSize := by
      unfold pgSize at *
      omega
    have hoff : (v + len) % pgSize = v % pgSize + len := by
      unfold pgSize at *
      omega
    have hlt : v / pgSize < 2 ^ 20 := by
      unfold pgSize
      omega
    have hm : Maps (patch s.mem (f * pgSize + v % pgSize) len src) _ _ t f := h.congr hlt
      (samePage_patch hd (by omega)) (samePage_patch ht (by omega))
    have htr := translate_eq (v := v + len) (hpage ▸ hm) rfl
    rw [hoff, ← Nat.add_assoc] at htr
    unfold storeBytes
    rw [bind_ok (ih (by omega) (by omega))]
    unfold storeByte
    rw [bind_ok (get_apply _), Fs.u32_of_lt (by omega)]
    simp only [htr]
    rw [patch_succ]
    rfl

theorem store32_ok {w : Nat} (h : Maps s.mem (s.cr3 / pgSize) (v / pgSize) t f)
    (hd : s.cr3 / pgSize ≠ f) (ht : t ≠ f) (ho : v % pgSize + 4 ≤ pgSize) (hv : v + 4 ≤ 2 ^ 32) :
    store32 v w s = .ok ((), { s with mem := patch s.mem (f * pgSize + v % pgSize) 4 (leByte w) }) :=
  storeBytes_ok h hd ht ho hv

end Maps

/-! ## A page of the kernel -/

/-- A page that is neither its table nor the directory, which is its own last table. -/
structure Mapped (mem : Store) (d n t f : Nat) : Prop extends Maps mem d n t f where
  self : Leads mem (d * pgSize + 4 * 1023) d
  table : t ≠ d
  page : f ≠ d ∧ f ≠ t

namespace Mapped
variable {mem mem' : Store} {d n t f v : Nat} {s : State}

theorem congr (h : Mapped mem d n t f) (hn : n < 2 ^ 20) (hd : SamePage d mem mem')
    (ht : SamePage t mem mem') : Mapped mem' d n t f :=
  ⟨h.toMaps.congr hn hd ht, h.self.congr hd (by norm_num), h.table, h.page⟩

end Mapped

/-- The last page of addresses is the directory. -/
theorem maps_directory {mem : Store} {d : Nat} (h : Leads mem (d * pgSize + 4 * 1023) d) :
    Maps mem d 0xfffff d d := ⟨h, h⟩

/-- The last 1024 pages of addresses are the tables. -/
theorem maps_table {mem : Store} {d n t : Nat} (hself : Leads mem (d * pgSize + 4 * 1023) d)
    (hn : n < 2 ^ 20) (ht : Leads mem (d * pgSize + 4 * (n / 1024)) t) :
    Maps mem d (0xffc00 + n / 1024) d t := by
  have h₁ : (0xffc00 + n / 1024) / 1024 = 1023 := by omega
  have h₂ : (0xffc00 + n / 1024) % 1024 = n / 1024 := by omega
  refine ⟨?_, ?_⟩
  · rw [h₁]
    exact hself
  · rw [h₂]
    exact ht

section Entries
variable {d n t v : Nat} {s : State}

theorem load_pde (hself : Leads s.mem (s.cr3 / pgSize * pgSize + 4 * 1023) (s.cr3 / pgSize))
    (hv : v < 2 ^ 32) :
    load32 (pdePtr v) s =
      .ok (le32 s.mem (s.cr3 / pgSize * pgSize + 4 * (v / pgSize / 1024)), s) := by
  have hpage : pdePtr v / pgSize = 0xfffff := by
    unfold pdePtr pgSize
    omega
  have hoff : pdePtr v % pgSize = 4 * (v / pgSize / 1024) := by
    unfold pdePtr pgSize
    omega
  have hm : Maps s.mem (s.cr3 / pgSize) (pdePtr v / pgSize) _ _ := hpage ▸ maps_directory hself
  rw [load32_ok hm (by rw [hoff]; unfold pgSize; omega) (by unfold pdePtr; omega), hoff]

theorem ptePtr_page : ptePtr v / pgSize = 0xffc00 + v / pgSize / 1024 := by
  unfold ptePtr pgSize
  omega

theorem ptePtr_off : ptePtr v % pgSize = 4 * (v / pgSize % 1024) := by
  unfold ptePtr pgSize
  omega

theorem load_pte (hself : Leads s.mem (s.cr3 / pgSize * pgSize + 4 * 1023) (s.cr3 / pgSize))
    (hv : v < 2 ^ 32)
    (ht : Leads s.mem (s.cr3 / pgSize * pgSize + 4 * (v / pgSize / 1024)) t) :
    load32 (ptePtr v) s = .ok (le32 s.mem (t * pgSize + 4 * (v / pgSize % 1024)), s) := by
  have hm := maps_table hself (n := v / pgSize) (by unfold pgSize; omega) ht
  rw [← ptePtr_page] at hm
  rw [load32_ok hm (by rw [ptePtr_off]; unfold pgSize; omega) (by unfold ptePtr pgSize; omega),
    ptePtr_off]

theorem store_pte {w : Nat} (hself : Leads s.mem (s.cr3 / pgSize * pgSize + 4 * 1023) (s.cr3 / pgSize))
    (hv : v < 2 ^ 32)
    (ht : Leads s.mem (s.cr3 / pgSize * pgSize + 4 * (v / pgSize / 1024)) t)
    (hd : s.cr3 / pgSize ≠ t) :
    store32 (ptePtr v) w s = .ok ((), { s with
      mem := patch s.mem (t * pgSize + 4 * (v / pgSize % 1024)) 4 (leByte w) }) := by
  have hm := maps_table hself (n := v / pgSize) (by unfold pgSize; omega) ht
  rw [← ptePtr_page] at hm
  rw [store32_ok hm hd hd (by rw [ptePtr_off]; unfold pgSize; omega)
    (by unfold ptePtr pgSize; omega), ptePtr_off]

end Entries

end Frog.Mm
