import Frog.Fs.Locks
import Frog.Mm.Frames

/-!
# Balanced locks

Which calls return with the locks they were entered with.
-/

namespace Frog.Mm

set_option autoImplicit false
open Prog
open Fs (u32 Opening)

/-- The calls of the memory manager that fetch the lock of a pool. -/
inductive MemCall where
  | getPhyFreePageWithVaddr (p : PoolType) (vaddr childPgdir : Nat)
  | sysMalloc (size : Nat)
  | sysFree (ptr : Nat)

def MemCall.run : MemCall → M Unit
  | .getPhyFreePageWithVaddr p vaddr childPgdir => do
    let _ ← Mm.getPhyFreePageWithVaddr p vaddr childPgdir
  | .sysMalloc size => do
    let _ ← Mm.sysMalloc size
  | .sysFree ptr => Mm.sysFree ptr

/-- There is a page in the pool, and it is not the one at address zero. -/
def FreePage (s : State) (p : PoolType) : Prop :=
  ∃ pos, (s.pool p).poolBitmap.findBlock 1 = some pos ∧
    u32 (pos * pgSize + (s.pool p).phyAddrStart) ≠ 0

def MemCall.FindsPage (s : State) : MemCall → Prop
  | .getPhyFreePageWithVaddr p _ _ => FreePage s p
  | .sysMalloc _ | .sysFree _ => True

variable {s t : State}

/-- The depth goes up by one. -/
def State.fetched (s : State) (l : LockName) : State :=
  { s with held := Function.update s.held l (s.held l + 1) }

/-- What is done between a fetch and a release. -/
theorem held_of_locked {α : Type} {l : LockName} {m : M α} {s' : State} {a : α} {u : Unit}
    (h : Within Remapped m) (hb : m (s.fetched l) = .ok (a, s'))
    (hr : lockRelease l s' = .ok (u, t)) : t.held = s.held := by
  have hheld : s'.held = (s.fetched l).held := (h _ _ _ hb).held
  obtain ⟨s'', s₁, hg, hr⟩ := bind_eq_ok.mp hr
  cases hg
  obtain ⟨u, s₂, hc, hr⟩ := bind_eq_ok.mp hr
  cases (check_eq_ok.mp hc).2
  cases hr
  simp only [hheld, State.fetched, Function.update_self, Function.update_idem,
    Nat.add_sub_cancel, Function.update_eq_self]

theorem sysMalloc_held {size r : Nat} (hrun : sysMalloc size s = .ok (r, t)) : t.held = s.held := by
  obtain ⟨s', s₁, hg, hrun⟩ := bind_eq_ok.mp hrun
  cases hg
  obtain ⟨c, s₂, hc, hrun⟩ := bind_eq_ok.mp hrun
  cases hc
  by_cases hz : 0 < size ∧ size < (s.pool (poolOf (s.tcb s.cur))).poolSize
  · rw [if_neg (not_not_intro hz)] at hrun
    obtain ⟨u, s₃, hf, hrun⟩ := bind_eq_ok.mp hrun
    cases hf
    obtain ⟨a, s₄, hb, hrun⟩ := bind_eq_ok.mp hrun
    obtain ⟨u, s₅, hr, hrun⟩ := bind_eq_ok.mp hrun
    cases hrun
    exact held_of_locked (allocate_remap _ _ _) hb hr
  · rw [if_pos hz] at hrun
    cases hrun
    rfl

theorem sysFree_held {ptr : Nat} {u : Unit} (hrun : sysFree ptr s = .ok (u, t)) :
    t.held = s.held := by
  obtain ⟨u, s₁, hc, hrun⟩ := bind_eq_ok.mp hrun
  cases (check_eq_ok.mp hc).2
  obtain ⟨c, s₂, hg, hrun⟩ := bind_eq_ok.mp hrun
  cases hg
  obtain ⟨u, s₃, hc, hrun⟩ := bind_eq_ok.mp hrun
  cases (check_eq_ok.mp hc).2
  obtain ⟨u, s₄, hf, hrun⟩ := bind_eq_ok.mp hrun
  cases hf
  obtain ⟨u, s₅, hb, hr⟩ := bind_eq_ok.mp hrun
  exact held_of_locked (giveBack_remap _ _) hb hr

theorem getFreePage_ok {p : PoolType} {a : Nat} (hrun : getFreePage p s = .ok (a, t)) :
    a ≠ 0 ↔ FreePage s p := by
  obtain ⟨s', s₁, hg, hrun⟩ := bind_eq_ok.mp hrun
  cases hg
  unfold FreePage
  cases hf : (s.pool p).poolBitmap.findBlock 1 with
  | none =>
    rw [hf] at hrun
    cases hrun
    simp
  | some pos =>
    rw [hf] at hrun
    obtain ⟨b, s₂, hb, hrun⟩ := bind_eq_ok.mp hrun
    obtain ⟨u, s₃, hs, hrun⟩ := bind_eq_ok.mp hrun
    cases hrun
    simp

theorem getPhyFreePageWithVaddr_held {p : PoolType} {vaddr pgdir r : Nat}
    (hrun : getPhyFreePageWithVaddr p vaddr pgdir s = .ok (r, t)) :
    t.held = s.held ↔ FreePage s p := by
  obtain ⟨u, s₁, hf, hrun⟩ := bind_eq_ok.mp hrun
  cases hf
  obtain ⟨a, s₂, hp, hrun⟩ := bind_eq_ok.mp hrun
  change getFreePage p (s.fetched (.pool p)) = .ok (a, s₂) at hp
  have hfree : a ≠ 0 ↔ FreePage (s.fetched (.pool p)) p := getFreePage_ok hp
  change _ ↔ FreePage s p at hfree
  rw [← hfree]
  by_cases ha : a = 0
  · rw [if_pos ha] at hrun
    obtain ⟨u, s₃, hf, hrun⟩ := bind_eq_ok.mp hrun
    cases hf
    cases hrun
    refine iff_of_false (fun h => ?_) (not_not_intro ha)
    have hheld : s₂.held = (s.fetched (.pool p)).held := (remaps (getFreePage_touch p) _ _ _ hp).held
    have htwo := congrFun h (.pool p)
    simp only [hheld, State.fetched, Function.update_self] at htwo
    omega
  · rw [if_neg ha] at hrun
    refine iff_of_true ?_ ha
    obtain ⟨u, s₃, hb, hrun⟩ := bind_eq_ok.mp hrun
    obtain ⟨u, s₄, hr, hrun⟩ := bind_eq_ok.mp hrun
    cases hrun
    refine held_of_locked (m := do
      let _ ← getFreePage p
      putPageAndFlush vaddr a pgdir) ?_ (bind_eq_ok.mpr ⟨a, s₂, hp, hb⟩) hr
    exact remaps ((getFreePage_touch p).bind fun _ => putPageAndFlush_touch _ _ _)

theorem MemCall.held {c : MemCall} {u : Unit} (hrun : c.run s = .ok (u, t)) :
    t.held = s.held ↔ c.FindsPage s := by
  cases c with
  | getPhyFreePageWithVaddr p vaddr childPgdir =>
    obtain ⟨r, s₁, hr, hp⟩ := bind_eq_ok.mp hrun
    cases hp
    exact getPhyFreePageWithVaddr_held hr
  | sysMalloc size =>
    obtain ⟨r, s₁, hr, hp⟩ := bind_eq_ok.mp hrun
    cases hp
    exact iff_of_true (sysMalloc_held hr) trivial
  | sysFree ptr => exact iff_of_true (sysFree_held hrun) trivial

/-- The calls that open or create a file return with the lock of the file table as it was exactly when
they find a slot, if they come to look for one; `get_phy_free_page_with_vaddr` returns with the locks
of the pools as they were exactly when it finds a page; `sys_malloc` and `sys_free` always do. -/
theorem returns_with_locks (o : Opening) (f g : Fs.State) (r : Option Nat) (m : MemCall) (s t : State)
    (u : Unit) :
    (o.run f = .ok (r, g) → (g.gFtLock = f.gFtLock ↔ o.FindsSlot f)) ∧
    (m.run s = .ok (u, t) → (t.held = s.held ↔ m.FindsPage s)) :=
  ⟨fun hrun => Opening.lock hrun, fun hrun => MemCall.held hrun⟩

/-- Every slot of the table is taken. -/
def fullTable : Fs.State :=
  { Fs.State.boot with fileTable := fun _ => { fdPos := 0, fdFlag := 0, fdInode := some 1 } }

/-- Neither pool has a page, and the kernel has eight addresses. -/
def noPages : State where
  mem := fun _ => 0
  cr3 := 0x100000
  cur := kHeapStart
  tcb := fun _ =>
    { selfKstack := 0
      parentPid := minusOne
      pid := 1
      status := .running
      priority := 30
      name := []
      ticks := 30
      elapsedTicks := 0
      pgdir := kHeapStart + pgSize
      progressVaddr := ⟨⟨fun _ => 0, 0⟩, userVaddrStart⟩
      fdTable := fun _ => none }
  pool := fun _ => ⟨⟨fun _ => 0xff, 1⟩, 0x200000, 8 * pgSize⟩
  kernelViraddr := ⟨⟨fun _ => 0, 1⟩, kHeapStart⟩
  pidBm := ⟨fun _ => 0, 1⟩
  held := fun _ => 0
  threadAllList := []
  threadReadyList := []
  fileTable := fun _ => { fdPos := 0, fdFlag := 0, fdInode := none }
  iCount := fun _ => 0
  intrOff := true
  kBlockDescs := kHeapStart - pgSize
  intrExit := 0

/-- `file_open` on a full table and `get_phy_free_page_with_vaddr` without pages keep the locks. -/
theorem returns_holding :
    (∃ t, (Opening.fileOpen 0 0).run fullTable = .ok (none, t) ∧ t.gFtLock ≠ fullTable.gFtLock) ∧
    ∃ t, (MemCall.getPhyFreePageWithVaddr .user userVaddrStart 0).run noPages = .ok ((), t) ∧
      t.held (.pool .user) = 2 ∧ noPages.held (.pool .user) = 0 :=
  ⟨⟨_, rfl, by decide⟩, ⟨_, rfl, by decide, rfl⟩⟩

theorem returns_with_locks_opening :
    ∃ t, (Opening.openLfb 0 0).run fullTable = .ok (none, t) ∧
      (t.gFtLock = fullTable.gFtLock ↔ (Opening.openLfb 0 0).FindsSlot fullTable) :=
  ⟨_, rfl, (returns_with_locks (.openLfb 0 0) fullTable _ none (.sysFree 0) noPages noPages ()).1 rfl⟩

end Frog.Mm
