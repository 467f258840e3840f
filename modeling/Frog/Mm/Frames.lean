import Frog.Mm.Fork

/-!
# What paging changes

The functions of the memory manager between two locks change memory, `cr3`, the pools and the maps of
the addresses, and nothing else; those that only allocate give no address of the kernel back.
-/

namespace Frog.Mm

set_option autoImplicit false
open Bytes Prog

/-- Only memory, `cr3`, the pools and the control blocks may differ. -/
def Touched (s t : State) : Prop :=
  ∃ mem cr3 pool tcb, t = { s with mem := mem, cr3 := cr3, pool := pool, tcb := tcb }

/-- The map of the kernel's addresses may differ, too. -/
def Remapped (s t : State) : Prop :=
  ∃ v, Touched { s with kernelViraddr := v } t

/-- No address of the kernel became free. -/
def AddrsGrow (s t : State) : Prop :=
  ∀ i, s.kernelViraddr.vaddrBitmap.getValue i = true →
    t.kernelViraddr.vaddrBitmap.getValue i = true

instance : Std.Refl Touched := ⟨fun s => ⟨s.mem, s.cr3, s.pool, s.tcb, rfl⟩⟩

instance : IsTrans State Touched := by
  refine ⟨fun s t u h h' => ?_⟩
  obtain ⟨mem, cr3, pool, tcb, rfl⟩ := h
  obtain ⟨mem', cr3', pool', tcb', rfl⟩ := h'
  exact ⟨mem', cr3', pool', tcb', rfl⟩

instance : Std.Refl Remapped := ⟨fun s => ⟨s.kernelViraddr, Std.Refl.refl s⟩⟩

instance : IsTrans State Remapped := by
  refine ⟨fun s t u h h' => ?_⟩
  obtain ⟨v, mem, cr3, pool, tcb, rfl⟩ := h
  obtain ⟨v', mem', cr3', pool', tcb', rfl⟩ := h'
  exact ⟨v', mem', cr3', pool', tcb', rfl⟩

instance : Std.Refl AddrsGrow := ⟨fun _ _ h => h⟩

instance : IsTrans State AddrsGrow := ⟨fun _ _ _ h h' i hi => h' i (h i hi)⟩

theorem Touched.remapped {s t : State} (h : Touched s t) : Remapped s t := ⟨s.kernelViraddr, h⟩

theorem Touched.addrsGrow {s t : State} (h : Touched s t) : AddrsGrow s t := by
  obtain ⟨mem, cr3, pool, tcb, rfl⟩ := h
  exact fun i hi => hi

theorem Remapped.held {s t : State} (h : Remapped s t) : t.held = s.held := by
  obtain ⟨v, mem, cr3, pool, tcb, rfl⟩ := h
  rfl

theorem Remapped.pidBm {s t : State} (h : Remapped s t) : t.pidBm = s.pidBm := by
  obtain ⟨v, mem, cr3, pool, tcb, rfl⟩ := h
  rfl

theorem touched_mem (s : State) (mem : Store) : Touched s { s with mem := mem } :=
  ⟨mem, s.cr3, s.pool, s.tcb, rfl⟩

theorem touched_cr3 (s : State) (cr3 : Nat) : Touched s { s with cr3 := cr3 } :=
  ⟨s.mem, cr3, s.pool, s.tcb, rfl⟩

theorem touched_pool (s : State) (pool : PoolType → Pool) : Touched s { s with pool := pool } :=
  ⟨s.mem, s.cr3, pool, s.tcb, rfl⟩

theorem touched_tcb (s : State) (tcb : Nat → Tcb) : Touched s { s with tcb := tcb } :=
  ⟨s.mem, s.cr3, s.pool, tcb, rfl⟩

theorem remapped_viraddr (s : State) (v : VirtualAddr) :
    Remapped s { s with kernelViraddr := v } := ⟨v, Std.Refl.refl _⟩

/-! ## Memory and page tables -/

section Touch

@[grind ←] theorem loadByte_touch (a : Nat) : Within Touched (loadByte a) := by
  unfold loadByte
  grind

@[grind ←] theorem storeByte_touch (a : Nat) (b : Byte) : Within Touched (storeByte a b) := by
  unfold storeByte
  grind [touched_mem]

@[grind ←] theorem loadBytes_touch (a n : Nat) : Within Touched (loadBytes a n) := by
  induction n with
  | zero => exact within_pure _
  | succ n ih =>
    unfold loadBytes
    grind

@[grind ←] theorem storeBytes_touch (a : Nat) (src : Store) (n : Nat) :
    Within Touched (storeBytes a src n) := by
  induction n with
  | zero => exact within_pure _
  | succ n ih =>
    unfold storeBytes
    grind

@[grind ←] theorem load32_touch (a : Nat) : Within Touched (load32 a) := by
  unfold load32
  grind

@[grind ←] theorem store32_touch (a v : Nat) : Within Touched (store32 a v) :=
  storeBytes_touch a _ 4

@[grind ←] theorem clear_touch (a n : Nat) : Within Touched (clear a n) :=
  storeBytes_touch a _ n

@[grind ←] theorem memcpy_touch (dest src n : Nat) : Within Touched (memcpy dest src n) := by
  induction n with
  | zero => exact within_pure _
  | succ n ih =>
    unfold memcpy
    grind

@[grind ←] theorem runningThread_touch : Within Touched runningThread := by
  unfold runningThread
  grind

@[grind ←] theorem setTcb_touch (a : Nat) (t : Tcb) : Within Touched (setTcb a t) := by
  unfold setTcb
  grind [touched_tcb]

@[grind ←] theorem setPoolBitmap_touch (p : PoolType) (b : Bitmap) :
    Within Touched (setPoolBitmap p b) := by
  unfold setPoolBitmap
  grind [touched_pool]

@[grind ←] theorem setValueBitmap_touch (b : Bitmap) (pos : Nat) (v : Bool) :
    Within Touched (setValueBitmap b pos v) := by
  unfold setValueBitmap
  grind

@[grind ←] theorem setValues_touch (pos : Nat) (v : Bool) (n : Nat) (b : Bitmap) :
    Within Touched (setValues pos v n b) := by
  induction n with
  | zero => exact within_pure _
  | succ n ih =>
    unfold setValues
    grind

@[grind ←] theorem getFreePage_touch (p : PoolType) : Within Touched (getFreePage p) := by
  unfold getFreePage
  refine Within.bind within_get fun s => ?_
  split <;> grind

@[grind ←] theorem viraddr_touch (p : PoolType) : Within Touched (viraddr p) := by
  unfold viraddr
  cases p <;> grind

@[grind ←] theorem addrV2p_touch (a : Nat) : Within Touched (addrV2p a) := by
  unfold addrV2p
  grind

@[grind ←] theorem setCr3_touch (a : Nat) : Within Touched (setCr3 a) := by
  unfold setCr3
  grind [touched_cr3]

@[grind ←] theorem flushCr3_touch (pgdir : Nat) : Within Touched (flushCr3 pgdir) := by
  unfold flushCr3
  grind

@[grind ←] theorem invalidate_touch : Within Touched invalidate := by
  unfold invalidate
  grind

@[grind ←] theorem putEntry_touch {flush : M Unit} (h : Within Touched flush) (vaddr phyaddr : Nat) :
    Within Touched (putEntry flush vaddr phyaddr) := by
  unfold putEntry
  refine Within.bind (load32_touch _) fun pde => within_ite (fun _ => ?_) fun _ => ?_
  · exact (load32_touch _).bind fun _ => (store32_touch _ _).bind fun _ => h
  · refine (getFreePage_touch _).bind fun table => (store32_touch _ _).bind fun _ => ?_
    refine (clear_touch _ _).bind fun _ => (load32_touch _).bind fun pte => ?_
    exact (within_check _ _).bind fun _ => store32_touch _ _

@[grind ←] theorem putPage_touch (vaddr phyaddr : Nat) : Within Touched (putPage vaddr phyaddr) :=
  putEntry_touch invalidate_touch vaddr phyaddr

@[grind ←] theorem putPageAndFlush_touch (vaddr phyaddr pgdir : Nat) :
    Within Touched (putPageAndFlush vaddr phyaddr pgdir) :=
  putEntry_touch (flushCr3_touch pgdir) vaddr phyaddr

@[grind ←] theorem removePage_touch (vaddr : Nat) : Within Touched (removePage vaddr) := by
  unfold removePage
  grind

@[grind ←] theorem virtualAddrToPhysicalAddr_touch (vaddr : Nat) :
    Within Touched (virtualAddrToPhysicalAddr vaddr) := by
  unfold virtualAddrToPhysicalAddr
  grind

@[grind ←] theorem putPages_touch (p : PoolType) (n vaddr : Nat) :
    Within Touched (putPages p n vaddr) := by
  induction n generalizing vaddr with
  | zero => exact within_pure _
  | succ n ih =>
    unfold putPages
    grind

@[grind ←] theorem freeAddrBitmap_touch (map : Bitmap) (addrStart addr pos n : Nat) :
    Within Touched (freeAddrBitmap map addrStart addr pos n) := by
  unfold freeAddrBitmap
  grind

@[grind ←] theorem freePage_touch (p : PoolType) (a : Nat) : Within Touched (freePage p a) := by
  unfold freePage
  grind

@[grind ←] theorem freePages_touch (p : PoolType) (n vaddr : Nat) :
    Within Touched (freePages p n vaddr) := by
  induction n generalizing vaddr with
  | zero => exact within_pure _
  | succ n ih =>
    unfold freePages
    grind

end Touch

/-! ## Lists, descriptors and arenas -/

section Heap

@[grind ←] theorem listAddTail_touch (node head : Nat) : Within Touched (listAddTail node head) := by
  unfold listAddTail
  grind

@[grind ←] theorem listDelInit_touch (node : Nat) : Within Touched (listDelInit node) := by
  unfold listDelInit
  grind

@[grind ←] theorem listPop_touch (head : Nat) : Within Touched (listPop head) := by
  unfold listPop
  grind

@[grind ←] theorem listIsEmpty_touch (head : Nat) : Within Touched (listIsEmpty head) := by
  unfold listIsEmpty
  grind

@[grind ←] theorem blockSize_touch (desc : Nat) : Within Touched (blockSize desc) :=
  load32_touch desc

@[grind ←] theorem blocksPerArena_touch (desc : Nat) : Within Touched (blocksPerArena desc) :=
  load32_touch (desc + 4)

@[grind ←] theorem blockDescInit_touch (descArray n i size : Nat) :
    Within Touched (blockDescInit descArray n i size) := by
  induction n generalizing i size with
  | zero => exact within_pure _
  | succ n ih =>
    unfold blockDescInit
    grind

@[grind ←] theorem findDesc_touch (descs size n i : Nat) :
    Within Touched (findDesc descs size n i) := by
  induction n generalizing i with
  | zero => exact within_pure _
  | succ n ih =>
    unfold findDesc
    grind

@[grind ←] theorem arena2block_touch (a idx : Nat) : Within Touched (arena2block a idx) := by
  unfold arena2block
  grind

@[grind ←] theorem forBlocks_touch {perArena : M Nat} {a : Nat} {body : Nat → M Unit}
    (hn : Within Touched perArena) (hb : ∀ b, Within Touched (body b)) (n idx : Nat) :
    Within Touched (forBlocks perArena a body n idx) := by
  induction n generalizing idx with
  | zero => exact within_pure _
  | succ n ih =>
    unfold forBlocks
    grind

theorem fillArena_touch (area desc : Nat) : Within Touched (fillArena area desc) := by
  refine (clear_touch _ _).bind fun _ => (store32_touch _ _).bind fun _ => ?_
  refine (storeByte_touch _ _).bind fun _ => (blocksPerArena_touch _).bind fun n => ?_
  refine (store32_touch _ _).bind fun _ => forBlocks_touch (blocksPerArena_touch _) ?_ _ _
  exact fun b => (load32_touch _).bind fun d => listAddTail_touch _ _

@[grind ←] theorem takeBlock_touch (desc : Nat) : Within Touched (takeBlock desc) := by
  unfold takeBlock
  grind

end Heap

/-! ## Addresses -/

section Remap

@[grind ←] theorem remaps {α : Type} {m : M α} (h : Within Touched m) : Within Remapped m :=
  h.mono fun _ _ => Touched.remapped

@[grind ←] theorem setVaddrBitmap_remap (p : PoolType) (b : Bitmap) :
    Within Remapped (setVaddrBitmap p b) := by
  unfold setVaddrBitmap
  cases p <;> grind [remapped_viraddr]

@[grind ←] theorem getFreeVaddress_remap (p : PoolType) (n : Nat) :
    Within Remapped (getFreeVaddress p n) := by
  unfold getFreeVaddress
  refine Within.bind (remaps (viraddr_touch p)) fun v => ?_
  split <;> grind

@[grind ←] theorem mallocPage_remap (p : PoolType) (n : Nat) : Within Remapped (mallocPage p n) := by
  unfold mallocPage
  grind

@[grind ←] theorem freeVaddress_remap (p : PoolType) (vaddr n : Nat) :
    Within Remapped (freeVaddress p vaddr n) := by
  unfold freeVaddress
  grind

@[grind ←] theorem mfreePage_remap (p : PoolType) (vaddr n : Nat) :
    Within Remapped (mfreePage p vaddr n) := by
  unfold mfreePage
  grind

theorem largeArena_remap (p : PoolType) (size : Nat) : Within Remapped (largeArena p size) := by
  refine (mallocPage_remap _ _).bind fun area => within_ite (fun _ => remaps ?_) fun _ =>
    within_pure _
  refine (clear_touch _ _).bind fun _ => (store32_touch _ _).bind fun _ => ?_
  exact (store32_touch _ _).bind fun _ => (storeByte_touch _ _).bind fun _ => within_pure _

theorem smallBlock_remap (p : PoolType) (descs size : Nat) :
    Within Remapped (smallBlock p descs size) := by
  refine (remaps (findDesc_touch _ _ _ _)).bind fun i => ?_
  refine (remaps (listIsEmpty_touch _)).bind fun empty => within_ite (fun _ => ?_) fun _ =>
    remaps (takeBlock_touch _)
  refine (mallocPage_remap _ _).bind fun area => within_ite (fun _ => within_pure _) fun _ => ?_
  exact remaps ((fillArena_touch _ _).bind fun _ => takeBlock_touch _)

theorem freeBlock_remap (p : PoolType) (block : Nat) : Within Remapped (freeBlock p block) := by
  refine (remaps (load32_touch _)).bind fun desc => (remaps (listAddTail_touch _ _)).bind fun _ => ?_
  refine (remaps (load32_touch _)).bind fun cnt => (remaps (store32_touch _ _)).bind fun _ => ?_
  refine (remaps (load32_touch _)).bind fun cnt => (remaps (load32_touch _)).bind fun desc => ?_
  refine (remaps (blocksPerArena_touch _)).bind fun n => within_ite (fun _ => ?_) fun _ =>
    within_pure _
  refine (remaps (forBlocks_touch ?_ listDelInit_touch _ _)).bind fun _ => mfreePage_remap _ _ _
  exact (load32_touch _).bind fun d => blocksPerArena_touch _

theorem allocate_remap (p : PoolType) (descs size : Nat) : Within Remapped (allocate p descs size) :=
  within_ite (fun _ => largeArena_remap _ _) fun _ => smallBlock_remap _ _ _

theorem giveBack_remap (p : PoolType) (ptr : Nat) : Within Remapped (giveBack p ptr) := by
  refine (remaps (loadByte_touch _)).bind fun large => (within_check _ _).bind fun _ => ?_
  refine (remaps (load32_touch _)).bind fun desc => within_ite (fun _ => ?_) fun _ =>
    freeBlock_remap _ _
  exact (remaps (load32_touch _)).bind fun cnt => mfreePage_remap _ _ _

end Remap

/-! ## Bits -/

theorem setValues_ok {pos n : Nat} {v : Bool} {b c : Bitmap} {s t : State}
    (hrun : setValues pos v n b s = .ok (c, t)) :
    t = s ∧ ∀ i, c.getValue i = if pos ≤ i ∧ i < pos + n then v else b.getValue i := by
  induction n generalizing c t with
  | zero =>
    cases hrun
    refine ⟨rfl, fun i => ?_⟩
    rw [if_neg (by omega)]
  | succ n ih =>
    obtain ⟨d, s₁, hd, hset⟩ := bind_eq_ok.mp hrun
    obtain ⟨hs, hbits⟩ := ih hd
    obtain ⟨u, s₂, hc, hset⟩ := bind_eq_ok.mp hset
    cases (check_eq_ok.mp hc).2
    cases hset
    refine ⟨hs, fun i => ?_⟩
    rw [Bitmap.getValue_setValue, hbits]
    by_cases hi : i = pos + n
    · rw [if_pos hi, if_pos (by omega)]
    · rw [if_neg hi]
      by_cases hlt : pos ≤ i ∧ i < pos + n
      · rw [if_pos hlt, if_pos (by omega)]
      · rw [if_neg hlt, if_neg (by omega)]

end Frog.Mm
