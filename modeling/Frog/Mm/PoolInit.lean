import Frog.Mm.Locks
import Mathlib.Order.Interval.Set.Basic

/-!
# The pools of page frames

`mem_pool_init` of `core/mm/memory.c`. The page counts are held in 16 bits, and the lengths of the
maps are rounded down to bytes.
-/

namespace Frog.Mm

set_option autoImplicit false
open Bytes Prog
open Fs (u32)

/-- `MEM_BITMAP_BASE` -/
def memBitmapBase : BitVec 32 := 0xc0060000

/-- `K_HEAP_START` -/
def kHeapBase : BitVec 32 := 0xc0100000

/-- The directory and `254 + 1 + 1` tables behind the first megabyte. -/
def usedMem : BitVec 32 := 4096 * (1 + 254 + 1 + 1) + 0x100000

/-- A `struct bitmap` with the address of its bytes. -/
structure BitmapAt where
  bits : BitVec 32
  mapBytesLength : BitVec 32

structure PoolAt where
  poolBitmap : BitmapAt
  phyAddrStart : BitVec 32
  poolSize : BitVec 32

structure VirtualAddrAt where
  vaddrBitmap : BitmapAt
  vaddrStart : BitVec 32

structure Pools where
  kernelPool : PoolAt
  userPool : PoolAt
  kernelViraddr : VirtualAddrAt

def Pools.pool (p : Pools) : PoolType → PoolAt
  | .kernel => p.kernelPool
  | .user => p.userPool

def allFreePages (allMem : BitVec 32) : BitVec 16 := ((allMem - usedMem) / 4096).setWidth 16

def kernelFreePage (allMem : BitVec 32) : BitVec 16 := allFreePages allMem / 2

def userFreePage (allMem : BitVec 32) : BitVec 16 := allFreePages allMem - kernelFreePage allMem

/-- What `mem_pool_init` puts into the variables. -/
def poolsOf (allMem : BitVec 32) : Pools :=
  let kernelFreePage := (kernelFreePage allMem).setWidth 32
  let userFreePage := (userFreePage allMem).setWidth 32
  let kbmLength := kernelFreePage / 8
  let ubmLength := userFreePage / 8
  let kpStart := usedMem
  let upStart := kpStart + kernelFreePage * 4096
  { kernelPool := ⟨⟨memBitmapBase, kbmLength⟩, kpStart, kernelFreePage * 4096⟩
    userPool := ⟨⟨memBitmapBase + kbmLength, ubmLength⟩, upStart, userFreePage * 4096⟩
    kernelViraddr := ⟨⟨memBitmapBase + kbmLength + ubmLength, kbmLength⟩, kHeapBase⟩ }

/-- `init_bitmap`; what lies behind the map stays. -/
def initBitmap (mem : Store) (b : BitmapAt) : Bitmap where
  bits i := if i < b.mapBytesLength.toNat then 0 else mem (b.bits.toNat + i)
  mapBytesLength := b.mapBytesLength.toNat

def initPool (mem : Store) (p : PoolAt) : Pool :=
  ⟨initBitmap mem p.poolBitmap, p.phyAddrStart.toNat, p.poolSize.toNat⟩

/-- `mem` is what lies at the kernel's addresses. -/
def memPoolInit (mem : Store) (allMem : BitVec 32) : M Unit :=
  modify fun s => { s with
    pool := fun p => initPool mem ((poolsOf allMem).pool p)
    kernelViraddr := ⟨initBitmap mem (poolsOf allMem).kernelViraddr.vaddrBitmap,
      (poolsOf allMem).kernelViraddr.vaddrStart.toNat⟩ }

def freePhyPage (phyAddrPage : Nat) : M Unit := do
  let s ← get
  if (s.pool .user).phyAddrStart ≤ phyAddrPage then freePage .user phyAddrPage
  else freePage .kernel phyAddrPage

/-! ## What the pools should be -/

/-- The addresses of the frames of a pool. -/
def PoolAt.frames (p : PoolAt) : Set Nat :=
  Set.Ico p.phyAddrStart.toNat (p.phyAddrStart.toNat + p.poolSize.toNat)

/-- The addresses of the bytes of a map. -/
def BitmapAt.bytes (b : BitmapAt) : Set Nat :=
  Set.Ico b.bits.toNat (b.bits.toNat + b.mapBytesLength.toNat)

/-- The addresses of the frame that a bit of the map of a pool stands for. -/
def PoolAt.frame (p : PoolAt) (pos : Nat) : Set Nat :=
  Set.Ico (p.phyAddrStart.toNat + pos * pgSize) (p.phyAddrStart.toNat + (pos + 1) * pgSize)

structure Apart (allMem : BitVec 32) (p : Pools) : Prop where
  frames : Disjoint p.kernelPool.frames p.userPool.frames
  inside : ∀ t, (p.pool t).frames ⊆ Set.Ico usedMem.toNat allMem.toNat
  maps : [p.kernelPool.poolBitmap, p.userPool.poolBitmap, p.kernelViraddr.vaddrBitmap].Pairwise
    fun a b => Disjoint a.bytes b.bytes
  bits : ∀ t pos, pos < (p.pool t).poolBitmap.mapBytesLength.toNat * 8 →
    (p.pool t).frame pos ⊆ (p.pool t).frames

/-- Bit `pos` of the map of a pool, and nothing else, takes the value. -/
def State.setFrame (s : State) (t : PoolType) (pos : Nat) (value : Bool) : State :=
  { s with pool := Function.update s.pool t { s.pool t with
      poolBitmap := (s.pool t).poolBitmap.setValue pos value } }

/-- The pools are where they were put at the start. Any bits may be set. -/
structure Placed (p : Pools) (s : State) : Prop where
  start : ∀ t, (s.pool t).phyAddrStart = (p.pool t).phyAddrStart.toNat
  length : ∀ t, (s.pool t).poolBitmap.mapBytesLength =
    (p.pool t).poolBitmap.mapBytesLength.toNat

/-- A frame that `get_free_page` returns is that of a clear bit, which it sets, and
`free_phy_page` clears that bit again, whatever happens to the bits in between. -/
def GoesHome (p : Pools) (s : State) (t : PoolType) : Prop :=
  getFreePage t s = .ok (0, s) ∧ (∀ pos, pos < (s.pool t).poolBitmap.mapBytesLength * 8 →
      (s.pool t).poolBitmap.getValue pos = true) ∨
    ∃ frame pos, getFreePage t s = .ok (frame, s.setFrame t pos true) ∧ frame ≠ 0 ∧
      (s.pool t).poolBitmap.getValue pos = false ∧
      ∀ u, Placed p u → freePhyPage frame u = .ok ((), u.setFrame t pos false)

variable {allMem : BitVec 32} {s : State} {t : PoolType} {pos : Nat}

/-! ## Sizes -/

/-- The free pages, as far as 16 bits count them. -/
def pageCount (allMem : BitVec 32) : Nat := (allMem.toNat - 0x201000) / 4096 % 65536

theorem usedMem_toNat : usedMem.toNat = 0x201000 := by decide

theorem allFreePages_toNat (h : usedMem ≤ allMem) :
    (allFreePages allMem).toNat = pageCount allMem := by
  have hle : usedMem.toNat ≤ allMem.toNat := h
  rw [usedMem_toNat] at hle
  rw [allFreePages, BitVec.toNat_setWidth, BitVec.toNat_udiv, BitVec.toNat_sub_of_le h,
    usedMem_toNat]
  rfl

theorem kernelFreePage_toNat (h : usedMem ≤ allMem) :
    (kernelFreePage allMem).toNat = pageCount allMem / 2 := by
  rw [kernelFreePage, BitVec.toNat_udiv, allFreePages_toNat h]
  rfl

theorem userFreePage_toNat (h : usedMem ≤ allMem) :
    (userFreePage allMem).toNat = pageCount allMem - pageCount allMem / 2 := by
  have hle : kernelFreePage allMem ≤ allFreePages allMem := by
    rw [BitVec.le_def, kernelFreePage_toNat h, allFreePages_toNat h]
    omega
  rw [userFreePage, BitVec.toNat_sub_of_le hle, allFreePages_toNat h, kernelFreePage_toNat h]

/-- The sizes as numbers: nothing wraps around. -/
structure Sized (n : Nat) (p : Pools) : Prop where
  kpStart : p.kernelPool.phyAddrStart.toNat = usedMem.toNat
  kpSize : p.kernelPool.poolSize.toNat = 4096 * (n / 2)
  upStart : p.userPool.phyAddrStart.toNat = usedMem.toNat + 4096 * (n / 2)
  upSize : p.userPool.poolSize.toNat = 4096 * (n - n / 2)
  kbmBits : p.kernelPool.poolBitmap.bits.toNat = 0xc0060000
  kbmLength : p.kernelPool.poolBitmap.mapBytesLength.toNat = n / 2 / 8
  ubmBits : p.userPool.poolBitmap.bits.toNat = 0xc0060000 + n / 2 / 8
  ubmLength : p.userPool.poolBitmap.mapBytesLength.toNat = (n - n / 2) / 8
  vbmBits : p.kernelViraddr.vaddrBitmap.bits.toNat = 0xc0060000 + n / 2 / 8 + (n - n / 2) / 8
  vbmLength : p.kernelViraddr.vaddrBitmap.mapBytesLength.toNat = n / 2 / 8

theorem poolsOf_sized (h : usedMem ≤ allMem) : Sized (pageCount allMem) (poolsOf allMem) := by
  have hk := kernelFreePage_toNat h
  have hu := userFreePage_toNat h
  have hn : pageCount allMem < 65536 := Nat.mod_lt _ (by norm_num)
  generalize pageCount allMem = n at *
  have hb : memBitmapBase.toNat = 0xc0060000 := by decide
  have h8 : (8 : BitVec 32).toNat = 8 := rfl
  have h4096 : (4096 : BitVec 32).toNat = 4096 := rfl
  constructor <;>
  simp only [poolsOf, BitVec.toNat_add, BitVec.toNat_mul, BitVec.toNat_udiv, BitVec.toNat_setWidth,
    h8, h4096, hk, hu, hb, usedMem_toNat] <;>
  omega

theorem pageCount_le (h : usedMem ≤ allMem) :
    usedMem.toNat + 4096 * pageCount allMem ≤ allMem.toNat := by
  have hle : usedMem.toNat ≤ allMem.toNat := h
  have hmod : pageCount allMem ≤ (allMem.toNat - usedMem.toNat) / 4096 := by
    rw [usedMem_toNat]
    exact Nat.mod_le ..
  omega

/-! ## The pools are apart -/

theorem ico_disjoint {a b c d : Nat} (h : b ≤ c) : Disjoint (Set.Ico a b) (Set.Ico c d) :=
  Set.disjoint_left.mpr fun _ hx hx' => absurd (hx.2.trans_le h) (not_lt.mpr hx'.1)

theorem poolsOf_apart (h : usedMem ≤ allMem) : Apart allMem (poolsOf allMem) := by
  have hs := poolsOf_sized h
  have hle := pageCount_le h
  generalize pageCount allMem = n at *
  generalize poolsOf allMem = p at *
  obtain ⟨h1, h2, h3, h4, h5, h6, h7, h8, h9, h10⟩ := hs
  constructor
  · rw [PoolAt.frames, PoolAt.frames, h1, h2, h3]
    exact ico_disjoint (Nat.le_refl _)
  · intro t
    cases t with
    | kernel =>
      simp only [Pools.pool, PoolAt.frames, h1, h2]
      exact Set.Ico_subset_Ico (by omega) (by omega)
    | user =>
      simp only [Pools.pool, PoolAt.frames, h3, h4]
      exact Set.Ico_subset_Ico (by omega) (by omega)
  · simp only [List.pairwise_cons, List.mem_cons, List.not_mem_nil, or_false, forall_eq_or_imp,
      forall_eq, List.Pairwise.nil, and_true, BitmapAt.bytes, h5, h6, h7, h8, h9, h10]
    exact ⟨⟨ico_disjoint (Nat.le_refl _), ico_disjoint (by omega)⟩, ico_disjoint (Nat.le_refl _),
      nofun⟩
  · intro t pos hpos
    cases t with
    | kernel =>
      simp only [Pools.pool, PoolAt.frame, PoolAt.frames, pgSize, h1, h2, h6,
        Nat.mul_comm _ 4096] at *
      exact Set.Ico_subset_Ico (by omega) (by omega)
    | user =>
      simp only [Pools.pool, PoolAt.frame, PoolAt.frames, pgSize, h3, h4, h8,
        Nat.mul_comm _ 4096] at *
      exact Set.Ico_subset_Ico (by omega) (by omega)

/-! ## Frames go home -/

theorem getFreePage_none (hf : (s.pool t).poolBitmap.findBlock 1 = none) :
    getFreePage t s = .ok (0, s) := by
  rw [getFreePage, bind_ok (get_apply s), hf]
  rfl

theorem getFreePage_some (hf : (s.pool t).poolBitmap.findBlock 1 = some pos) :
    getFreePage t s = .ok (u32 (pos * pgSize + (s.pool t).phyAddrStart), s.setFrame t pos true) := by
  have hlt := (Bitmap.findBlock_one hf).1
  rw [getFreePage, bind_ok (get_apply s), hf]
  simp only
  rw [setValueBitmap, check, if_pos hlt]
  rfl

theorem freePage_ok {frame : Nat} (hpos : pos < (s.pool t).poolBitmap.mapBytesLength * 8)
    (hf : frame = (s.pool t).phyAddrStart + pos * pgSize) :
    freePage t frame s = .ok ((), s.setFrame t pos false) := by
  have hat : (frame - (s.pool t).phyAddrStart) / pgSize = pos := by
    rw [hf, Nat.add_sub_cancel_left, Nat.mul_div_cancel pos (by decide)]
  apply run_eq_of_wp
  simp only [freePage, freeAddrBitmap, setValues, setValueBitmap, setPoolBitmap, wp_bind, wp_get,
    wp_check, wp_pure, wp_modify, hat]
  refine ⟨?_, fun hn => hn (by omega)⟩
  intro _
  refine ⟨?_, fun hn => hn (by omega)⟩
  intro _
  exact ⟨fun _ => ⟨trivial, rfl⟩, fun hn => hn (by omega)⟩

theorem freePhyPage_ok {frame : Nat} {p : Pools} {n : Nat} (hp : Sized n p) (hs : Placed p s)
    (hpos : pos < (s.pool t).poolBitmap.mapBytesLength * 8)
    (hf : frame = (s.pool t).phyAddrStart + pos * pgSize) :
    freePhyPage frame s = .ok ((), s.setFrame t pos false) := by
  rw [freePhyPage, bind_ok (get_apply s)]
  have hup : (s.pool .user).phyAddrStart = usedMem.toNat + 4096 * (n / 2) :=
    (hs.start .user).trans hp.upStart
  cases t with
  | kernel =>
    have hkp : (s.pool .kernel).phyAddrStart = usedMem.toNat := (hs.start .kernel).trans hp.kpStart
    have hlen : (s.pool .kernel).poolBitmap.mapBytesLength = n / 2 / 8 :=
      (hs.length .kernel).trans hp.kbmLength
    have hbelow : ¬ (s.pool .user).phyAddrStart ≤ frame := by
      rw [hup, hf, hkp]
      unfold pgSize
      omega
    rw [if_neg hbelow]
    exact freePage_ok hpos hf
  | user =>
    rw [if_pos (hf ▸ Nat.le_add_right _ _)]
    exact freePage_ok hpos hf

theorem goesHome {p : Pools} {n : Nat} (hn : n < 65536) (hp : Sized n p) (hs : Placed p s) :
    GoesHome p s t := by
  have hused := usedMem_toNat
  have hstart : 0 < (s.pool t).phyAddrStart ∧
      (s.pool t).phyAddrStart + (s.pool t).poolBitmap.mapBytesLength * 8 * 4096 < 2 ^ 32 := by
    rw [hs.start, hs.length]
    cases t with
    | kernel =>
      simp only [Pools.pool, hp.kpStart, hp.kbmLength]
      omega
    | user =>
      simp only [Pools.pool, hp.upStart, hp.ubmLength]
      omega
  cases hf : (s.pool t).poolBitmap.findBlock 1 with
  | none => exact .inl ⟨getFreePage_none hf, fun pos hpos => Bitmap.findBlock_one_none hf hpos⟩
  | some pos =>
    obtain ⟨hpos, hclear, -⟩ := Bitmap.findBlock_one hf
    have hframe : u32 (pos * pgSize + (s.pool t).phyAddrStart) =
        (s.pool t).phyAddrStart + pos * pgSize := by
      unfold u32 pgSize
      omega
    refine .inr ⟨_, pos, getFreePage_some hf, ?_, hclear, ?_⟩
    · rw [hframe]
      omega
    · intro u hu
      refine freePhyPage_ok hp hu ?_ ?_
      · rw [hu.length, ← hs.length]
        exact hpos
      · rw [hframe, hu.start, ← hs.start]

theorem memPoolInit_placed (mem : Store) :
    ∃ u, memPoolInit mem allMem s = .ok ((), u) ∧ Placed (poolsOf allMem) u :=
  ⟨_, rfl, fun _ => rfl, fun _ => rfl⟩

/-- The pools are apart, and from the first call on every frame goes back to the bit it came from. -/
theorem pools_apart (h : usedMem ≤ allMem) (mem : Store) (s : State) :
    Apart allMem (poolsOf allMem) ∧
      (∃ u, memPoolInit mem allMem s = .ok ((), u) ∧ Placed (poolsOf allMem) u) ∧
      ∀ u, Placed (poolsOf allMem) u → ∀ t, GoesHome (poolsOf allMem) u t :=
  ⟨poolsOf_apart h, memPoolInit_placed mem,
    fun _ hu _ => goesHome (Nat.mod_lt _ (by norm_num)) (poolsOf_sized h) hu⟩

/-- With 32 MB of memory. -/
theorem pools_apart_small : Apart 0x2000000 (poolsOf 0x2000000) ∧
    ∀ u, Placed (poolsOf 0x2000000) u → ∀ t, GoesHome (poolsOf 0x2000000) u t := by
  obtain ⟨h1, -, h3⟩ := pools_apart (by decide : usedMem ≤ 0x2000000) (fun _ => 0) noPages
  exact ⟨h1, h3⟩

end Frog.Mm
