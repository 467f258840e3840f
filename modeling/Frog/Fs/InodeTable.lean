import Frog.Fs.Layout

/-!
# The inode table

A hundred bytes each, the inodes lie one behind the other across the sectors. What is stored of one
is read back by the next `inode_open`, and no other inode sees it.
-/

namespace Frog.Fs

set_option autoImplicit false
open Bytes Prog

/-! ## An inode as bytes -/

/-- Every field has the width of its type. -/
structure Inode.InWidth (x : Inode) : Prop where
  iNum : x.iNum < 2 ^ 32
  iMode : x.iMode < 65536
  iUid : x.iUid < 65536
  iSize : x.iSize < 2 ^ 32
  iMtime : x.iMtime < 2 ^ 32
  iGid : x.iGid < 256
  iNlinks : x.iNlinks < 256
  pad18 : x.pad18 < 65536
  iZones : ∀ k, x.iZones k < 2 ^ 32
  zones_len : ∀ k, 13 ≤ k → x.iZones k = 0
  iAtime : x.iAtime < 2 ^ 32
  iCtime : x.iCtime < 2 ^ 32
  iDev : x.iDev < 65536
  iCount : x.iCount < 65536
  iLock : x.iLock < 256
  iDirt : x.iDirt < 256
  iPipe : x.iPipe < 256
  iMount : x.iMount < 256
  iSeek : x.iSeek < 256
  iUpdate : x.iUpdate < 256
  pad90 : x.pad90 < 65536
  tagPrev : x.tagPrev < 2 ^ 32
  tagNext : x.tagNext < 2 ^ 32

/-- Any hundred bytes of memory are such an inode. -/
theorem Inode.inWidth_ofBytes (b : Store) : (Inode.ofBytes b).InWidth where
  iNum := le32_lt ..
  iMode := le16_lt ..
  iUid := le16_lt ..
  iSize := le32_lt ..
  iMtime := le32_lt ..
  iGid := (b 16).isLt
  iNlinks := (b 17).isLt
  pad18 := le16_lt ..
  iZones k := by
    show (if k < 13 then le32 b (20 + 4 * k) else 0) < 2 ^ 32
    split
    · exact le32_lt ..
    · decide
  zones_len k hk := if_neg (by omega)
  iAtime := le32_lt ..
  iCtime := le32_lt ..
  iDev := le16_lt ..
  iCount := le16_lt ..
  iLock := (b 84).isLt
  iDirt := (b 85).isLt
  iPipe := (b 86).isLt
  iMount := (b 87).isLt
  iSeek := (b 88).isLt
  iUpdate := (b 89).isLt
  pad90 := le16_lt ..
  tagPrev := le32_lt ..
  tagNext := le32_lt ..

theorem Inode.InWidth.forDisk {x : Inode} (h : x.InWidth) : x.forDisk.InWidth :=
  { h with
    iCount := Nat.zero_lt_of_lt h.iCount
    iLock := Nat.zero_lt_of_lt h.iLock
    tagPrev := Nat.zero_lt_of_lt h.tagPrev
    tagNext := Nat.zero_lt_of_lt h.tagNext }

theorem le16_of_bytes_lt {b : Store} {o v : Nat} (hv : v < 65536)
    (h : ∀ i, i < 2 → b (o + i) = leByte v i) : le16 b o = v := by
  rw [le16_of_bytes h, Nat.mod_eq_of_lt hv]

theorem byteAt_of_byte {b : Store} {o v : Nat} (hv : v < 256) (h : b o = leByte v 0) :
    byteAt b o = v := by
  rw [byteAt, h, leByte_toNat, Nat.pow_zero, Nat.div_one, Nat.mod_eq_of_lt hv]

theorem Inode.toBytes_zone {x : Inode} {k i : Nat} (hk : k < 13) (hi : i < 4) :
    x.toBytes (20 + 4 * k + i) = leByte (x.iZones k) i := by
  have h1 : (20 + 4 * k + i - 20) / 4 = k := by omega
  have h2 : (20 + 4 * k + i - 20) % 4 = i := by omega
  unfold Inode.toBytes
  rw [if_neg (by omega), if_neg (by omega), if_neg (by omega), if_neg (by omega), if_neg (by omega),
    if_neg (by omega), if_neg (by omega), if_neg (by omega), if_pos (by omega), h1, h2]

theorem Inode.ofBytes_toBytes {x : Inode} (h : x.InWidth) : Inode.ofBytes x.toBytes = x := by
  have hz : (fun k => if k < 13 then le32 x.toBytes (20 + 4 * k) else 0) = x.iZones := by
    funext k
    split
    · rename_i hk
      exact le32_of_bytes_lt (h.iZones k) fun i hi => Inode.toBytes_zone hk hi
    · exact (h.zones_len k (by omega)).symm
  have w0 : le32 x.toBytes 0 = x.iNum :=
    le32_of_bytes_lt h.iNum fun i hi => by interval_cases i <;> rfl
  have w4 : le16 x.toBytes 4 = x.iMode :=
    le16_of_bytes_lt h.iMode fun i hi => by interval_cases i <;> rfl
  have w6 : le16 x.toBytes 6 = x.iUid :=
    le16_of_bytes_lt h.iUid fun i hi => by interval_cases i <;> rfl
  have w8 : le32 x.toBytes 8 = x.iSize :=
    le32_of_bytes_lt h.iSize fun i hi => by interval_cases i <;> rfl
  have w12 : le32 x.toBytes 12 = x.iMtime :=
    le32_of_bytes_lt h.iMtime fun i hi => by interval_cases i <;> rfl
  have w16 : byteAt x.toBytes 16 = x.iGid := byteAt_of_byte h.iGid rfl
  have w17 : byteAt x.toBytes 17 = x.iNlinks := byteAt_of_byte h.iNlinks rfl
  have w18 : le16 x.toBytes 18 = x.pad18 :=
    le16_of_bytes_lt h.pad18 fun i hi => by interval_cases i <;> rfl
  have w72 : le32 x.toBytes 72 = x.iAtime :=
    le32_of_bytes_lt h.iAtime fun i hi => by interval_cases i <;> rfl
  have w76 : le32 x.toBytes 76 = x.iCtime :=
    le32_of_bytes_lt h.iCtime fun i hi => by interval_cases i <;> rfl
  have w80 : le16 x.toBytes 80 = x.iDev :=
    le16_of_bytes_lt h.iDev fun i hi => by interval_cases i <;> rfl
  have w82 : le16 x.toBytes 82 = x.iCount :=
    le16_of_bytes_lt h.iCount fun i hi => by interval_cases i <;> rfl
  have w84 : byteAt x.toBytes 84 = x.iLock := byteAt_of_byte h.iLock rfl
  have w85 : byteAt x.toBytes 85 = x.iDirt := byteAt_of_byte h.iDirt rfl
  have w86 : byteAt x.toBytes 86 = x.iPipe := byteAt_of_byte h.iPipe rfl
  have w87 : byteAt x.toBytes 87 = x.iMount := byteAt_of_byte h.iMount rfl
  have w88 : byteAt x.toBytes 88 = x.iSeek := byteAt_of_byte h.iSeek rfl
  have w89 : byteAt x.toBytes 89 = x.iUpdate := byteAt_of_byte h.iUpdate rfl
  have w90 : le16 x.toBytes 90 = x.pad90 :=
    le16_of_bytes_lt h.pad90 fun i hi => by interval_cases i <;> rfl
  have w92 : le32 x.toBytes 92 = x.tagPrev :=
    le32_of_bytes_lt h.tagPrev fun i hi => by interval_cases i <;> rfl
  have w96 : le32 x.toBytes 96 = x.tagNext :=
    le32_of_bytes_lt h.tagNext fun i hi => by interval_cases i <;> rfl
  simp only [Inode.ofBytes, hz, w0, w4, w6, w8, w12, w16, w17, w18, w72, w76, w80, w82, w84, w85,
    w86, w87, w88, w89, w90, w92, w96]

/-- The first hundred bytes are all that is read. -/
theorem Inode.ofBytes_congr {b b' : Store} (h : ∀ i, i < 100 → b i = b' i) :
    Inode.ofBytes b = Inode.ofBytes b' := by
  have w : ∀ o, o + 4 ≤ 100 → le32 b o = le32 b' o := fun o ho =>
    le32_congr fun i hi => h _ (by omega)
  have v : ∀ o, o + 2 ≤ 100 → le16 b o = le16 b' o := fun o ho =>
    le16_congr fun i hi => h _ (by omega)
  have u : ∀ o, o < 100 → byteAt b o = byteAt b' o := fun o ho => congrArg BitVec.toNat (h o ho)
  have hz : (fun k => if k < 13 then le32 b (20 + 4 * k) else 0) =
      fun k => if k < 13 then le32 b' (20 + 4 * k) else 0 := by
    funext k
    split
    · exact w _ (by omega)
    · rfl
  simp only [Inode.ofBytes, hz, w 0 (by omega), v 4 (by omega), v 6 (by omega), w 8 (by omega),
    w 12 (by omega), u 16 (by omega), u 17 (by omega), v 18 (by omega), w 72 (by omega),
    w 76 (by omega), v 80 (by omega), v 82 (by omega), u 84 (by omega), u 85 (by omega),
    u 86 (by omega), u 87 (by omega), u 88 (by omega), u 89 (by omega), v 90 (by omega),
    w 92 (by omega), w 96 (by omega)]

/-- The inode `nr` of the table. -/
def diskInode (sb : SuperBlock) (disk : Store) (nr : Nat) : Inode :=
  Inode.ofBytes fun i => disk (inodeAddr sb nr + i)

theorem diskInode_patch {sb : SuperBlock} {disk src : Store} {nr : Nat} :
    diskInode sb (patch disk (inodeAddr sb nr) 100 src) nr = Inode.ofBytes src := by
  refine Inode.ofBytes_congr fun i hi => ?_
  rw [patch_in (by omega), Nat.add_sub_cancel_left]

theorem diskInode_patch_ne {sb : SuperBlock} {disk src : Store} {i j : Nat} (h : j ≠ i) :
    diskInode sb (patch disk (inodeAddr sb i) 100 src) j = diskInode sb disk j := by
  refine Inode.ofBytes_congr fun k hk => patch_out ?_
  unfold inodeAddr
  omega

/-- A formatted partition has room for its 4096 inodes, and for no other. -/
theorem formatBlock_inodeTable {startLba secCnt : Nat}
    (h : (formatBlock startLba secCnt).sInodeTableLba + inodeTableSz ≤ maxLba + 1) :
    InodeTable (formatBlock startLba secCnt) :=
  ⟨Nat.le_of_eq (by rfl), h⟩

/-! ## Opening -/

section Opening
variable {E : Stop → Prop} {s : State} {nr : Nat}

theorem wp_localeInode {Q : Iposition → State → Prop} (hn : nr < s.sb.sNinodes) :
    wp E (localeInode nr) Q s ↔ Q (inodePosition s.sb nr) s := by
  simp only [localeInode, wp_bind, wp_get, wp_check, hn, wp_pure, true_implies, not_true_eq_false,
    false_implies, and_true]

/-- What an uncached inode is read as. -/
theorem InodeTable.read_eq (h : InodeTable s.sb) (hn : nr < s.sb.sNinodes) {Q : Inode → State → Prop} :
    wp E (do
      let buf ← ideRead (inodePosition s.sb nr).startLba (inodePosition s.sb nr).cnt
      pure (Inode.ofBytes fun i => buf ((inodePosition s.sb nr).offset + i))) Q s ↔
      Q (diskInode s.sb s.disk nr) s := by
  obtain ⟨hs, ho, hc, ht, hp⟩ := h.position_eq hn
  have hd := h.disk
  have hend : 0 < (inodePosition s.sb nr).cnt ∧
      s.sb.sInodeTableLba + 100 * nr / 512 + (inodePosition s.sb nr).cnt ≤ maxLba + 1 := by
    omega
  have hx : (Inode.ofBytes fun i => sectors s.disk (s.sb.sInodeTableLba + 100 * nr / 512)
      (inodePosition s.sb nr).cnt (100 * nr % 512 + i)) = diskInode s.sb s.disk nr := by
    refine Inode.ofBytes_congr fun i hi => ?_
    rw [sectors_apply (by omega)]
    unfold inodeAddr
    congr 1
    omega
  simp only [wp_bind, hs, ho, wp_ideRead, hend, wp_pure, hx, true_implies, not_true_eq_false,
    false_implies, and_true, and_self]

/-- The state after inode `nr` has been read from the disk and listed. -/
def State.opened (s : State) (nr : Nat) : State :=
  let x := diskInode s.sb s.disk nr
  { s.nextMalloc.nextMalloc.putInode s.next (some { x with iCount := (x.iCount + 1) % 65536 }) with
    next := s.next + 1
    openInodes := s.next :: s.openInodes }

theorem wp_findOpenInode_same {Q : Option Nat → State → Prop} {ps : List Nat} {d : Store} :
    wp E (findOpenInode nr ps) Q (s.setDisk d) ↔
      wp E (findOpenInode nr ps) (fun r t => t = s ∧ Q r (s.setDisk d)) s := by
  induction ps with
  | nil => simp only [findOpenInode, wp_pure, true_and]
  | cons p ps ih =>
    simp only [findOpenInode, wp_bind, wp_inodeAt, wp_ite, wp_pure, ih, true_and]

theorem wp_findOpenInode_frame {Q : Option Nat → State → Prop} {ps : List Nat} :
    wp E (findOpenInode nr ps) Q s ↔ wp E (findOpenInode nr ps) (fun r t => t = s ∧ Q r s) s :=
  wp_findOpenInode_same (d := s.disk)

theorem wp_load {Q : Nat → State → Prop} (h : InodeTable s.sb) (hn : nr < s.sb.sNinodes) :
    wp E (do
      let pos ← localeInode nr
      mustMalloc 100
      mustMalloc (pos.cnt * 512)
      let buf ← ideRead pos.startLba pos.cnt
      let x := Inode.ofBytes fun i => buf (pos.offset + i)
      let p ← newInodeObject { x with iCount := (x.iCount + 1) % 65536 }
      listAddOpen p
      pure p) Q s ↔
      (s.env.malloc 0 = true →
        (s.env.malloc 1 = true → Q s.next (s.opened nr)) ∧
          (¬ s.env.malloc 1 = true → E .fault)) ∧
        (¬ s.env.malloc 0 = true → E .fault) := by
  have hp : 0 < (inodePosition s.sb nr).cnt := (h.position_eq hn).2.2.2.2
  have hread : ∀ {t : State} {R : Inode → State → Prop}, t.sb = s.sb → t.disk = s.disk →
      (wp E (ideRead (inodePosition s.sb nr).startLba (inodePosition s.sb nr).cnt) (fun buf u =>
        R (Inode.ofBytes fun i => buf ((inodePosition s.sb nr).offset + i)) u) t ↔
        R (diskInode s.sb s.disk nr) t) := by
    intro t R hsb hd
    have ht : InodeTable t.sb := hsb.symm ▸ h
    have hnr : nr < t.sb.sNinodes := hsb.symm ▸ hn
    have hr := ht.read_eq (E := E) (Q := R) hnr
    rw [wp_bind, hsb, hd] at hr
    exact hr
  have hm : 0 < (inodePosition s.sb nr).cnt * 512 := by omega
  simp only [wp_bind, wp_localeInode hn, mustMalloc, wp_sysMalloc (show 0 < 100 by decide),
    wp_sysMalloc hm, wp_check]
  have hfin : wp E (ideRead (inodePosition s.sb nr).startLba (inodePosition s.sb nr).cnt)
      (fun buf u => wp E (newInodeObject
        { Inode.ofBytes (fun i => buf ((inodePosition s.sb nr).offset + i)) with
          iCount := ((Inode.ofBytes fun i =>
            buf ((inodePosition s.sb nr).offset + i)).iCount + 1) % 65536 })
        (fun p t => wp E (listAddOpen p) (fun _ t => wp E (pure p) Q t) t) u)
      s.nextMalloc.nextMalloc ↔ Q s.next (s.opened nr) :=
    hread (t := s.nextMalloc.nextMalloc) (R := fun x u => wp E (newInodeObject
      { x with iCount := (x.iCount + 1) % 65536 })
        (fun p t => wp E (listAddOpen p) (fun _ t => wp E (pure p) Q t) t) u) rfl rfl
  rw [hfin]

theorem wp_inodeOpen {Q : Nat → State → Prop} (h : InodeTable s.sb) (hn : nr < s.sb.sNinodes) :
    wp E (inodeOpen nr) Q s ↔ wp E (findOpenInode nr s.openInodes) (fun r _ =>
      match r with
      | some p => Q p s
      | none => (s.env.malloc 0 = true →
          (s.env.malloc 1 = true → Q s.next (s.opened nr)) ∧
            (¬ s.env.malloc 1 = true → E .fault)) ∧
          (¬ s.env.malloc 0 = true → E .fault)) s := by
  rw [inodeOpen, wp_bind, wp_get, wp_bind]
  refine wp_findOpenInode_frame.trans (Iff.trans (wp_congr fun r t => ?_)
    wp_findOpenInode_frame.symm)
  refine and_congr_right fun _ => ?_
  cases r with
  | some p => rw [wp_pure]
  | none => exact wp_load h hn

/-- An open inode is found wherever the disk stands, one that is read is the same on both disks. -/
theorem inodeOpen_setDisk {d : Store} (h : InodeTable s.sb) (hn : nr < s.sb.sNinodes)
    (hd : diskInode s.sb d nr = diskInode s.sb s.disk nr) :
    inodeOpen nr (s.setDisk d) = (inodeOpen nr s).map fun r => (r.1, r.2.setDisk d) := by
  apply map_of_wp (f := fun t : State => t.setDisk d)
  intro E Q hw
  have hload : (s.setDisk d).opened nr = (s.opened nr).setDisk d := by
    simp only [State.opened, hd]
  rw [wp_inodeOpen h hn] at hw
  rw [wp_inodeOpen (s := s.setDisk d) h hn, wp_findOpenInode_same]
  refine wp_mono (wp_findOpenInode_frame.mp hw) fun r t hr => ⟨hr.1, ?_⟩
  cases r with
  | some p => exact hr.2
  | none =>
    rw [hload]
    exact hr.2

/-- No open inode has the number. -/
def State.Uncached (s : State) (nr : Nat) : Prop :=
  ∀ p ∈ s.openInodes, ∃ x, s.inodes p = some x ∧ x.iNum ≠ nr

theorem wp_findOpenInode_none {Q : Option Nat → State → Prop} {ps : List Nat}
    (hu : ∀ p ∈ ps, ∃ x, s.inodes p = some x ∧ x.iNum ≠ nr) :
    wp E (findOpenInode nr ps) Q s ↔ Q none s := by
  induction ps with
  | nil => rw [findOpenInode, wp_pure]
  | cons p ps ih =>
    obtain ⟨x, hx, hne⟩ := hu p (List.mem_cons_self ..)
    have ih' := ih fun q hq => hu q (List.mem_cons_of_mem _ hq)
    simp only [findOpenInode, wp_bind, wp_inodeAt, hx, Option.some.injEq, forall_eq', reduceCtorEq,
      false_implies, and_true, hne, if_false, ih']

theorem wp_inodeOpen_uncached {Q : Nat → State → Prop} (h : InodeTable s.sb)
    (hn : nr < s.sb.sNinodes) (hu : s.Uncached nr) :
    wp E (inodeOpen nr) Q s ↔ (s.env.malloc 0 = true →
      (s.env.malloc 1 = true → Q s.next (s.opened nr)) ∧
        (¬ s.env.malloc 1 = true → E .fault)) ∧
      (¬ s.env.malloc 0 = true → E .fault) := by
  rw [wp_inodeOpen h hn, wp_findOpenInode_none hu]

theorem wp_inodeDelete {Q : Unit → State → Prop} (h : InodeTable s.sb) (hn : nr < s.sb.sNinodes) :
    wp E (inodeDelete nr) Q s ↔
      Q () (s.setDisk (patch s.disk (inodeAddr s.sb nr) 100 fun _ => 0)) := by
  rw [inodeDelete, wp_bind, wp_localeInode hn]
  exact h.wp_rewrite hn

end Opening

/-- What `flush_inode` stores is read back with a count of one and the lock cleared; neither it nor
`inode_delete` reaches another inode. -/
theorem inode_table_isolated (s : State) (h : InodeTable s.sb) :
    (∀ x : Inode, x.InWidth → x.iNum < s.sb.sNinodes → ∃ d,
      flushInode x s = .ok ((), s.setDisk d) ∧
      (∀ u : State, u.disk = d → u.sb = s.sb → u.Uncached x.iNum →
        (∀ p t, inodeOpen x.iNum u = .ok (p, t) → t.inodes p =
          some { x with iCount := 1, iLock := 0, tagPrev := 0, tagNext := 0 }) ∧
        (u.env.malloc 0 = true → u.env.malloc 1 = true →
          ∃ p t, inodeOpen x.iNum u = .ok (p, t))) ∧
      ∀ j, j < s.sb.sNinodes → j ≠ x.iNum →
        inodeOpen j (s.setDisk d) = (inodeOpen j s).map fun r => (r.1, r.2.setDisk d)) ∧
    ∀ i, i < s.sb.sNinodes → ∃ d, inodeDelete i s = .ok ((), s.setDisk d) ∧
      ∀ j, j < s.sb.sNinodes → j ≠ i →
        inodeOpen j (s.setDisk d) = (inodeOpen j s).map fun r => (r.1, r.2.setDisk d) := by
  constructor
  · intro x hx hn
    refine ⟨_, run_eq_of_wp ((h.wp_flushInode hn).mpr ⟨rfl, rfl⟩), ?_, ?_⟩
    · intro u hd hsb hu
      have hu' : InodeTable u.sb := hsb.symm ▸ h
      have hn' : x.iNum < u.sb.sNinodes := hsb.symm ▸ hn
      have hstored : diskInode u.sb u.disk x.iNum = x.forDisk := by
        rw [hd, hsb, diskInode_patch, Inode.ofBytes_toBytes hx.forDisk]
      constructor
      · intro p t hrun
        have hw : wp (fun _ => True) (inodeOpen x.iNum) (fun p t => t.inodes p =
            some { x with iCount := 1, iLock := 0, tagPrev := 0, tagNext := 0 }) u := by
          rw [wp_inodeOpen_uncached hu' hn' hu]
          refine ⟨fun _ => ⟨fun _ => ?_, fun _ => trivial⟩, fun _ => trivial⟩
          simp only [State.opened, hstored, Inode.forDisk, Function.update_self]
        have hy := wp_ok hw hrun
        exact hy
      · intro h0 h1
        have hw : wp (fun _ => False) (inodeOpen x.iNum) (fun _ _ => True) u := by
          rw [wp_inodeOpen_uncached hu' hn' hu]
          exact ⟨fun _ => ⟨fun _ => trivial, fun hc => hc h1⟩, fun hc => hc h0⟩
        obtain ⟨p, t, hrun, -⟩ := ok_of_wp hw
        exact ⟨p, t, hrun⟩
    · exact fun j hj hne => inodeOpen_setDisk h hj (diskInode_patch_ne hne)
  · intro i hi
    refine ⟨_, run_eq_of_wp ((wp_inodeDelete h hi).mpr ⟨rfl, rfl⟩), ?_⟩
    exact fun j hj hne => inodeOpen_setDisk h hj (diskInode_patch_ne hne)

/-- Inode 5 crosses a sector, inode 6 follows it. -/
theorem inode_table_isolated_crossing :
    let s := { State.boot with sb := formatBlock 63 20000 }
    ∃ d, flushInode { zeroInode with iNum := 5, iSize := 7 } s = .ok ((), s.setDisk d) ∧
      (∃ p t, inodeOpen 5 (s.setDisk d) = .ok (p, t) ∧ (t.inodes p).map Inode.iSize = some 7) ∧
      inodeOpen 6 (s.setDisk d) = (inodeOpen 6 s).map fun r => (r.1, r.2.setDisk d) := by
  intro s
  have hx : Inode.InWidth { zeroInode with iNum := 5, iSize := 7 } :=
    { Inode.inWidth_ofBytes fun _ => 0 with iNum := by decide, iSize := by decide }
  have h := (inode_table_isolated s (formatBlock_inodeTable (by decide))).1 _ hx (by decide)
  obtain ⟨d, hrun, hopen, hother⟩ := h
  refine ⟨d, hrun, ?_, hother 6 (by decide) (by decide)⟩
  have hu : (s.setDisk d).Uncached 5 := fun p hp => absurd hp List.not_mem_nil
  obtain ⟨hread, hret⟩ := hopen (s.setDisk d) rfl rfl hu
  obtain ⟨p, t, ho⟩ := hret rfl rfl
  refine ⟨p, t, ho, ?_⟩
  rw [hread p t ho]
  rfl

end Frog.Fs
