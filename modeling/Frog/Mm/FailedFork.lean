import Frog.Mm.Locks

/-!
# Forks without memory

A fork that fails has taken an address of the kernel or a pid by then, and neither is given back, unless
the kernel has no address left at all.
-/

namespace Frog.Mm

set_option autoImplicit false
open Bytes Prog
open Fs (u32)

/-! ## What stays taken -/

abbrev SamePids : State → State → Prop := SamePart State.pidBm

section Pids

@[grind ←] theorem pids {α : Type} {m : M α} (h : Within Remapped m) : Within SamePids m :=
  h.mono fun _ _ => Remapped.pidBm

@[grind ←] theorem lockFetch_pids (l : LockName) : Within SamePids (lockFetch l) :=
  within_modify fun _ => rfl

@[grind ←] theorem lockRelease_pids (l : LockName) : Within SamePids (lockRelease l) :=
  within_get.bind fun _ => (within_check _ _).bind fun _ => within_modify fun _ => rfl

@[grind ←] theorem getKernelPage_pids (n : Nat) : Within SamePids (getKernelPage n) := by
  unfold getKernelPage
  grind

@[grind ←] theorem getPhyFreePageWithVaddr_pids (p : PoolType) (vaddr pgdir : Nat) :
    Within SamePids (getPhyFreePageWithVaddr p vaddr pgdir) := by
  unfold getPhyFreePageWithVaddr
  grind

@[grind ←] theorem createPageDir_pids : Within SamePids createPageDir := by
  refine (getKernelPage_pids 1).bind fun a => within_ite (fun _ => within_pure 0) fun _ => ?_
  refine (pids (remaps (memcpy_touch _ _ _))).bind fun _ => ?_
  refine (pids (remaps (addrV2p_touch _))).bind fun _ => ?_
  exact (pids (remaps (store32_touch _ _))).bind fun _ => within_pure _

@[grind ←] theorem pageDirActivate_touch (a : Nat) : Within Touched (pageDirActivate a) := by
  unfold pageDirActivate
  grind

@[grind ←] theorem copyPage_pids (child parent bufPage progVaddr : Nat) :
    Within SamePids (copyPage child parent bufPage progVaddr) := by
  refine (pids (remaps (memcpy_touch bufPage progVaddr pgSize))).bind fun _ => ?_
  refine (pids (remaps (pageDirActivate_touch child))).bind fun _ => within_get.bind fun s => ?_
  refine (getPhyFreePageWithVaddr_pids _ _ _).bind fun _ => ?_
  refine (pids (remaps (memcpy_touch progVaddr bufPage pgSize))).bind fun _ => ?_
  exact pids (remaps (pageDirActivate_touch parent))

@[grind ←] theorem copyPages_pids (child parent bufPage : Nat) (v : VirtualAddr) (n idx : Nat) :
    Within SamePids (copyPages child parent bufPage v n idx) := by
  induction n generalizing idx with
  | zero => exact within_pure ()
  | succ n ih =>
    have hb : Within SamePids (copyBit child parent bufPage v idx) :=
      within_ite (fun _ => copyPage_pids _ _ _ _) fun _ => within_pure ()
    exact hb.bind fun _ => ih (idx + 1)

@[grind ←] theorem copyBodyStack3_pids (child parent bufPage : Nat) :
    Within SamePids (copyBodyStack3 child parent bufPage) :=
  within_get.bind fun _ => copyPages_pids _ _ _ _ _ _

@[grind ←] theorem buildChildStack_pids (child : Nat) : Within SamePids (buildChildStack child) := by
  refine (pids (remaps (store32_touch _ _))).bind fun _ => within_get.bind fun s => ?_
  exact (pids (remaps (store32_touch _ _))).bind fun _ => pids (remaps (setTcb_touch _ _))

theorem updateOpenCnt_pids (fd g : Nat) : Within SamePids (updateOpenCnt fd g) := by
  have hp : Within SamePids (isPipe fd) := by
    unfold isPipe
    grind
  refine (within_check _ _).bind fun _ => hp.bind fun pipe => within_ite (fun _ => ?_) fun _ => ?_
  · exact within_get.bind fun s => within_modify fun _ => rfl
  · exact within_get.bind fun s => (within_need _ _).bind fun q => within_modify fun _ => rfl

@[grind ←] theorem updateInodeOpenCnts_pids (thread n fd : Nat) :
    Within SamePids (updateInodeOpenCnts thread n fd) := by
  induction n generalizing fd with
  | zero => exact within_pure ()
  | succ n ih =>
    unfold updateInodeOpenCnts
    refine within_get.bind fun s => ?_
    split
    · exact (within_pure ()).bind fun _ => ih _
    · exact (updateOpenCnt_pids _ _).bind fun _ => ih _

@[grind ←] theorem linkChild_pids (child : Nat) : Within SamePids (linkChild child) := by
  refine within_get.bind fun s => (within_check _ _).bind fun _ => ?_
  refine Within.bind (R := SamePids) (within_modify fun _ => rfl) fun _ => ?_
  exact (within_check _ _).bind fun _ => within_modify fun _ => rfl

end Pids

/-- A pid was free and is taken. -/
def TakesPid (s t : State) : Prop :=
  ∃ pos, s.pidBm.getValue pos = false ∧ t.pidBm.getValue pos = true

theorem TakesPid.of_same {s t u : State} (h : SamePids s t) (h' : TakesPid t u) : TakesPid s u := by
  obtain ⟨pos, hs, ht⟩ := h'
  rw [show t.pidBm = s.pidBm from h] at hs
  exact ⟨pos, hs, ht⟩

theorem TakesPid.then_same {s t u : State} (h : TakesPid s t) (h' : SamePids t u) :
    TakesPid s u := by
  obtain ⟨pos, hs, ht⟩ := h
  rw [← show u.pidBm = t.pidBm from h'] at ht
  exact ⟨pos, hs, ht⟩

variable {s t : State}

theorem forkPid_takes : Within TakesPid forkPid := by
  intro s pid t hrun
  obtain ⟨u, s₁, hf, hrun⟩ := bind_eq_ok.mp hrun
  cases hf
  obtain ⟨s', s₂, hg, hrun⟩ := bind_eq_ok.mp hrun
  cases hg
  change (need (s.pidBm.findBlock 1) Stop.panic >>= _) (s.fetched .pid) = _ at hrun
  obtain ⟨pos, s₃, hn, hrun⟩ := bind_eq_ok.mp hrun
  cases hf : s.pidBm.findBlock 1 with
  | none =>
    rw [hf] at hn
    cases hn
  | some i =>
    rw [hf] at hn
    cases hn
    obtain ⟨b, s₄, hb, hrun⟩ := bind_eq_ok.mp hrun
    obtain ⟨u, s₅, hc, hb⟩ := bind_eq_ok.mp hb
    cases (check_eq_ok.mp hc).2
    cases hb
    obtain ⟨u, s₆, hm, hrun⟩ := bind_eq_ok.mp hrun
    cases hm
    have hrest : t.pidBm = s.pidBm.setValue pos true :=
      ((lockRelease_pids .pid).bind fun _ => within_pure _) _ _ _ hrun
    refine ⟨pos, (Bitmap.findBlock_one hf).2.1, ?_⟩
    rw [hrest, Bitmap.getValue_setValue_self]

theorem copyTcbVaddrbitmapStack0_takes (child parent : Nat) :
    Within TakesPid (copyTcbVaddrbitmapStack0 child parent) := by
  refine Within.comp (P := SamePids) (Q := TakesPid) (pids (remaps (memcpy_touch child parent pgSize)))
    (fun _ => ?_) fun _ _ _ => TakesPid.of_same
  refine Within.comp (P := SamePids) (Q := TakesPid) within_get (fun s => ?_)
    fun _ _ _ => TakesPid.of_same
  refine Within.comp (P := SamePids) (Q := TakesPid) (pids (remaps (setTcb_touch _ _)))
    (fun _ => ?_) fun _ _ _ => TakesPid.of_same
  refine forkPid_takes.comp (Q := SamePids) (fun pid => ?_) fun _ _ _ => TakesPid.then_same
  refine (pids (remaps (setTcb_touch _ _))).bind fun _ => ?_
  refine (pids (remaps (blockDescInit_touch _ _ _ _))).bind fun _ => ?_
  refine (getKernelPage_pids _).bind fun a => within_ite (fun _ => within_pure false) fun _ => ?_
  refine within_get.bind fun s => (within_check _ _).bind fun _ => ?_
  exact (pids (remaps (setTcb_touch _ _))).bind fun _ => within_pure true

/-! ## Addresses of the kernel -/

/-- The addresses that are found are taken, and none is given back. -/
theorem getFreeVaddress_takes {n a : Nat} (hrun : getFreeVaddress .kernel n s = .ok (a, t)) :
    AddrsGrow s t ∧ ∀ pos, s.kernelViraddr.vaddrBitmap.findBlock n = some pos →
      ∀ i, pos ≤ i → i < pos + n → t.kernelViraddr.vaddrBitmap.getValue i = true := by
  obtain ⟨v, s₁, hv, hrun⟩ := bind_eq_ok.mp hrun
  cases hv
  cases hf : s.kernelViraddr.vaddrBitmap.findBlock n with
  | none =>
    rw [hf] at hrun
    cases hrun
    exact ⟨fun _ h => h, fun pos h => by cases h⟩
  | some pos =>
    rw [hf] at hrun
    obtain ⟨b, s₂, hb, hrun⟩ := bind_eq_ok.mp hrun
    obtain ⟨rfl, hbits⟩ := setValues_ok hb
    obtain ⟨u, s₃, hs, hrun⟩ := bind_eq_ok.mp hrun
    cases hrun
    cases hs
    refine ⟨fun i hi => ?_, fun pos' hp i h h' => ?_⟩
    · change b.getValue i = true
      rw [hbits, hi, ite_self]
    · cases hp
      change b.getValue i = true
      rw [hbits, if_pos ⟨h, h'⟩]

theorem grows {α : Type} {m : M α} (h : Within Touched m) : Within AddrsGrow m :=
  h.mono fun _ _ => Touched.addrsGrow

theorem lockRelease_grows (l : LockName) : Within AddrsGrow (lockRelease l) :=
  within_get.bind fun _ => (within_check _ _).bind fun _ => within_modify fun _ _ h => h

theorem linkChild_grows (child : Nat) : Within AddrsGrow (linkChild child) := by
  refine within_get.bind fun s => (within_check _ _).bind fun _ => ?_
  refine Within.bind (R := AddrsGrow) (within_modify fun _ _ h => h) fun _ => ?_
  exact (within_check _ _).bind fun _ => within_modify fun _ _ h => h

theorem getKernelPage_takes {n a : Nat} (hrun : getKernelPage n s = .ok (a, t)) :
    AddrsGrow s t ∧ ∀ pos, s.kernelViraddr.vaddrBitmap.findBlock n = some pos →
      ∀ i, pos ≤ i → i < pos + n → t.kernelViraddr.vaddrBitmap.getValue i = true := by
  obtain ⟨u, s₁, hf, hrun⟩ := bind_eq_ok.mp hrun
  cases hf
  obtain ⟨v, s₂, hm, hrun⟩ := bind_eq_ok.mp hrun
  obtain ⟨u, s₃, hc, hm⟩ := bind_eq_ok.mp hm
  cases (check_eq_ok.mp hc).2
  obtain ⟨v', s₄, hv, hm⟩ := bind_eq_ok.mp hm
  obtain ⟨hgrow, htake⟩ := getFreeVaddress_takes (s := s.fetched (.pool .kernel)) hv
  have hput : AddrsGrow s₄ s₂ := by
    refine within_ite (fun _ => within_pure 0) (fun _ => ?_) _ _ _ hm
    exact (grows (putPages_touch _ _ _)).bind fun ok =>
      within_ite (fun _ => within_pure _) fun _ => within_pure _
  have hend : AddrsGrow s₂ t := by
    refine within_ite (fun _ => ?_) (fun _ => ?_) _ _ _ hrun
    · exact (grows (clear_touch _ _)).bind fun _ => (lockRelease_grows _).bind fun _ => within_pure v
    · exact (lockRelease_grows _).bind fun _ => within_pure v
  exact ⟨fun i hi => hend i (hput i (hgrow i hi)),
    fun pos hp i h h' => hend i (hput i (htake pos hp i h h'))⟩

/-! ## The fork -/

/-- Frames, addresses, pids, locks, open counts, lists of threads and the directory in use are as
before. -/
structure Unchanged (s t : State) : Prop where
  pool : t.pool = s.pool
  addresses : t.kernelViraddr = s.kernelViraddr
  pids : t.pidBm = s.pidBm
  held : t.held = s.held
  fileTable : t.fileTable = s.fileTable
  iCount : t.iCount = s.iCount
  all : t.threadAllList = s.threadAllList
  ready : t.threadReadyList = s.threadReadyList
  cr3 : t.cr3 = s.cr3
  directory : ∀ i, i < pgSize → t.mem (s.cr3 / pgSize * pgSize + i) = s.mem (s.cr3 / pgSize * pgSize + i)

/-- The call returns -1 and has changed nothing. -/
def FailsCleanly (s : State) : Prop := ∃ t, sysFork s = .ok (minusOne, t) ∧ Unchanged s t

theorem fillChild_pids (child parent bufPage : Nat) :
    Within SamePids (fillChild child parent bufPage) := by
  refine (copyBodyStack3_pids _ _ _).bind fun _ => (buildChildStack_pids _).bind fun _ => ?_
  refine (updateInodeOpenCnts_pids _ _ _).bind fun _ => ?_
  exact (pids (mfreePage_remap _ _ _)).bind fun _ => within_pure true

/-- Unless the buffer is missing, a pid is gone. -/
theorem copyProcess_takes (child parent : Nat) :
    Within (fun s t => AddrsGrow s t ∨ TakesPid s t) (copyProcess child parent) := by
  have hbuf : Within (fun s t => AddrsGrow s t ∧ SamePids s t) (getKernelPage 1) :=
    fun s a t h => ⟨(getKernelPage_takes h).1, getKernelPage_pids 1 s a t h⟩
  refine hbuf.comp (Q := fun s t => AddrsGrow s t ∨ TakesPid s t) (fun bufPage => ?_) ?_
  · refine within_ite (fun _ => fun s a t h => .inl ?_) fun _ => Within.mono (R := TakesPid) ?_
      fun s t => .inr
    · exact within_pure false s a t h
    · refine (copyTcbVaddrbitmapStack0_takes child parent).comp (Q := SamePids) (fun copied => ?_)
        fun _ _ _ => TakesPid.then_same
      refine within_ite (fun _ => within_pure false) fun _ => createPageDir_pids.bind fun pgdir => ?_
      refine within_get.bind fun s => (pids (remaps (setTcb_touch _ _))).bind fun _ => ?_
      exact within_ite (fun _ => within_pure false) fun _ => fillChild_pids child parent bufPage
  · rintro s t u ⟨hgrow, hsame⟩ (h | h)
    · exact .inl fun i hi => h i (hgrow i hi)
    · exact .inr (TakesPid.of_same hsame h)

/-- A fork for which the kernel has an address takes this address or a pid. -/
theorem sysFork_takes {pos r : Nat} (hf : s.kernelViraddr.vaddrBitmap.findBlock 1 = some pos)
    (hrun : sysFork s = .ok (r, t)) :
    t.kernelViraddr.vaddrBitmap.getValue pos = true ∨ TakesPid s t := by
  obtain ⟨s', s₁, hg, hrun⟩ := bind_eq_ok.mp hrun
  cases hg
  obtain ⟨child, s₂, hk, hrun⟩ := bind_eq_ok.mp hrun
  have htaken := (getKernelPage_takes hk).2 pos hf pos (le_refl pos) (Nat.lt_succ_self pos)
  have hpids : SamePids s s₂ := getKernelPage_pids 1 _ _ _ hk
  by_cases h0 : child = 0
  · rw [if_pos h0] at hrun
    cases hrun
    exact .inl htaken
  · rw [if_neg h0] at hrun
    obtain ⟨u, s₃, hc, hrun⟩ := bind_eq_ok.mp hrun
    cases (check_eq_ok.mp hc).2
    obtain ⟨copied, s₄, hp, hrun⟩ := bind_eq_ok.mp hrun
    have hlink : AddrsGrow s₄ t ∧ SamePids s₄ t := by
      constructor
      · refine within_ite (fun _ => within_pure _) (fun _ => ?_) _ _ _ hrun
        exact (linkChild_grows child).bind fun _ => within_get.bind fun s => within_pure _
      · refine within_ite (fun _ => within_pure _) (fun _ => ?_) _ _ _ hrun
        exact (linkChild_pids child).bind fun _ => within_get.bind fun s => within_pure _
    rcases copyProcess_takes _ _ _ _ _ hp with hgrow | htake
    · exact .inl (hlink.1 pos (hgrow pos htaken))
    · exact .inr ((TakesPid.of_same hpids htake).then_same hlink.2)

/-- Without an address for the child's control block the call comes back at once. -/
theorem sysFork_full (hf : s.kernelViraddr.vaddrBitmap.findBlock 1 = none) :
    sysFork s = .ok (minusOne, s) := by
  have hv : getFreeVaddress .kernel 1 (s.fetched (.pool .kernel)) =
      .ok (0, s.fetched (.pool .kernel)) := by
    refine bind_eq_ok.mpr ⟨s.kernelViraddr, s.fetched (.pool .kernel), rfl, ?_⟩
    rw [hf]
    rfl
  have hm : mallocPage .kernel 1 (s.fetched (.pool .kernel)) = .ok (0, s.fetched (.pool .kernel)) :=
    bind_eq_ok.mpr ⟨(), _, check_eq_ok.mpr ⟨Nat.one_pos, rfl⟩, bind_eq_ok.mpr ⟨0, _, hv, rfl⟩⟩
  have hr : lockRelease (.pool .kernel) (s.fetched (.pool .kernel)) = .ok ((), s) := by
    refine bind_eq_ok.mpr ⟨_, _, rfl, bind_eq_ok.mpr ⟨(), _, check_eq_ok.mpr ⟨?_, rfl⟩, ?_⟩⟩
    · simp [State.fetched]
    · simp [State.fetched]
  have hk : getKernelPage 1 s = .ok (0, s) :=
    bind_eq_ok.mpr ⟨(), s.fetched (.pool .kernel), rfl, bind_eq_ok.mpr ⟨0, _, hm,
      bind_eq_ok.mpr ⟨(), s, hr, rfl⟩⟩⟩
  exact bind_eq_ok.mpr ⟨s, s, rfl, bind_eq_ok.mpr ⟨0, s, hk, rfl⟩⟩

/-- A fork that fails leaves everything as it was exactly when the kernel has no address at all. -/
theorem failsCleanly_iff (s : State) :
    FailsCleanly s ↔ ∀ i, i < s.kernelViraddr.vaddrBitmap.mapBytesLength * 8 →
      s.kernelViraddr.vaddrBitmap.getValue i = true := by
  constructor
  · rintro ⟨t, hrun, hsame⟩ i hi
    cases hf : s.kernelViraddr.vaddrBitmap.findBlock 1 with
    | none => exact Bitmap.findBlock_one_none hf hi
    | some pos =>
      rcases sysFork_takes hf hrun with htaken | ⟨pid, hfree, htaken⟩
      · rw [hsame.addresses, (Bitmap.findBlock_one hf).2.1] at htaken
        cases htaken
      · rw [hsame.pids, hfree] at htaken
        cases htaken
  · intro hfull
    have hf : s.kernelViraddr.vaddrBitmap.findBlock 1 = none := by
      cases hf : s.kernelViraddr.vaddrBitmap.findBlock 1 with
      | none => rfl
      | some pos =>
        obtain ⟨hlt, hfree, -⟩ := Bitmap.findBlock_one hf
        rw [hfull pos hlt] at hfree
        cases hfree
    exact ⟨s, sysFork_full hf, rfl, rfl, rfl, rfl, rfl, rfl, rfl, rfl, rfl, fun _ _ => rfl⟩

/-- Without a page for the child's control block its address stays taken. -/
theorem sysFork_noPages :
    noPages.kernelViraddr.vaddrBitmap.getValue 0 = false ∧
    ∃ t, sysFork noPages = .ok (minusOne, t) ∧ t.kernelViraddr.vaddrBitmap.getValue 0 = true :=
  ⟨by decide, _, rfl, by decide⟩

end Frog.Mm
