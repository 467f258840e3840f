import Frog.Fs.DirState

/-!
# Removing a directory entry

Once `delete_dir_entry` has found its entry, it treats every later zone as if the entry were
there: the slot is cleared again, in the sector of a zone or in sector 0, and the size shrinks
again. What it does is what was asked for only when the entry is in the last of the 140 zones.
-/

namespace Frog.Fs

set_option autoImplicit false
open Bytes Prog

variable {E : Stop → Prop} {s : State} {p inodeNr : Nat} {x : Inode}

/-- The address the loop reads for index `k`: it misses the direct zones behind a zero. -/
def scanZone (disk : Store) (x : Inode) (k : Nat) : Nat :=
  zoneArray (directPrefix x) (tableOf disk x) k

def matchAt (disk : Store) (x : Inode) (inodeNr k : Nat) : Option Nat :=
  lastMatch (sectorAt disk (scanZone disk x k)) inodeNr

def HasEntry (disk : Store) (x : Inode) (inodeNr : Nat) : Prop :=
  ∃ k i e, liveAt disk x k i = some e ∧ e.iNo = inodeNr

/-- The sectors a removal from zone `k` may write: the zone's own, the indirect table, the
directory's inode and the bitmaps. -/
def MayWrite (s : State) (x : Inode) (k a : Nat) : Prop :=
  a / 512 = zoneOf s.disk x k ∨ a / 512 = x.iZones 12 ∨
    (inodeAddr s.sb x.iNum ≤ a ∧ a < inodeAddr s.sb x.iNum + 100) ∨
    (s.sb.sImapLba ≤ a / 512 ∧ a / 512 < s.sb.sInodeTableLba)

/-- Nothing but the removed entry was in the zone. -/
def OnlyEntry (disk : Store) (x : Inode) (k i : Nat) : Prop :=
  ∀ i', i' ≠ i → liveAt disk x k i' = none

/-- The live entry in slot `i` of zone `k` is removed and nothing else changes. -/
structure EntryRemoved (s t : State) (x x' : Inode) (inodeNr k i : Nat) : Prop where
  target : ∃ e, liveAt s.disk x k i = some e ∧ e.iNo = inodeNr
  gone : liveAt t.disk x' k i = none
  others : ∀ k' i', (k', i') ≠ (k, i) → liveAt t.disk x' k' i' = liveAt s.disk x k' i'
  size : x'.iSize = u32Sub x.iSize 24
  written : ∀ a, t.disk a ≠ s.disk a → MayWrite s x k a
  zones : ∀ k', zoneOf t.disk x' k' ≠ zoneOf s.disk x k' → k' = k ∧ OnlyEntry s.disk x k i
  zoneBits : ∀ b, t.zoneBitmap.getValue b ≠ s.zoneBitmap.getValue b →
    b = zoneOf s.disk x k - s.sb.sDataStartLba ∧ OnlyEntry s.disk x k i
  inodeBits : t.inodeBitmap = s.inodeBitmap

/-- What a call has to do: remove one entry of the number if there is one, else nothing. -/
def Deletes (s t : State) (p : Nat) (x : Inode) (inodeNr : Nat) : Prop :=
  (HasEntry s.disk x inodeNr → ∃ x' k i, t.inodes p = some x' ∧ EntryRemoved s t x x' inodeNr k i) ∧
    (¬ HasEntry s.disk x inodeNr → t = s)

/-! ## One turn of the loop -/

theorem wp_shrinkSize {Q : Unit → State → Prop} (hl : Layout s.sb) (hx : s.inodes p = some x)
    (hn : x.iNum < s.sb.sNinodes) :
    wp E (shrinkSize p) Q s ↔
      Q () ((s.putInode p (some (x.setSize (u32Sub x.iSize 24)))).setDisk
        (patch s.disk (inodeAddr s.sb x.iNum) 100
          (x.setSize (u32Sub x.iSize 24)).forDisk.toBytes)) := by
  simp only [shrinkSize, wp_bind, wp_inodeAt, hx, Option.some.injEq, forall_eq', reduceCtorEq,
    false_implies, and_true, wp_setInode]
  exact wp_flushInode hl hn

/-- Zones without a match are passed over and leave no trace. -/
theorem wp_deleteZones_skip {zones : Nat → Nat} {left : Nat} {Q : Unit → State → Prop} {n : Nat} :
    ∀ {i : Nat}, (∀ j, i ≤ j → j < i + n →
        zones j ≤ maxLba ∧ lastMatch (sectorAt s.disk (zones j)) inodeNr = none) →
      (wp E (deleteZones p inodeNr (n + left) i zones none) Q s ↔
        wp E (deleteZones p inodeNr left (i + n) zones none) Q s) := by
  induction n with
  | zero =>
    intro i _
    simp
  | succ n ih =>
    intro i h
    obtain ⟨hz, hm⟩ := h i (by omega) (by omega)
    unfold sectorAt at hm
    rw [show n + 1 + left = n + left + 1 by omega, deleteZones]
    simp only [wp_bind, wp_ideRead_one hz, wp_get, hm, true_or, wp_check, true_implies,
      not_true_eq_false, false_implies, and_true, Option.or_none]
    rw [ih fun j h1 h2 => h j (by omega) (by omega), show i + 1 + n = i + (n + 1) by omega]

/-- Dropping a zone may change addresses and bitmaps, but not the size. -/
theorem wp_dropZone_size {zones : Nat → Nat} {i : Nat} (hx : s.inodes p = some x) :
    wp (fun _ => True) (dropZone p zones i) (fun _ t =>
      t.sb = s.sb ∧ ∃ y, t.inodes p = some y ∧ y.iSize = x.iSize ∧ y.iNum = x.iNum) s := by
  simp only [dropZone, wp_bind, wp_get, wp_setBit_zone, implies_true, and_true]
  intro _
  refine wp_flushBitmap_any trivial fun disk => ?_
  simp only [wp_inodeAt, hx, Option.some.injEq, forall_eq', wp_ite, wp_bind, wp_setInode,
    wp_pure, wp_check, wp_ideWrite, wp_setBit_zone, implies_true, and_true, Function.update_self]
  refine ⟨fun _ => ⟨trivial, x.setZone i 0, rfl, rfl, rfl⟩,
    fun _ _ => ⟨fun _ _ => ⟨trivial, x, rfl, rfl, rfl⟩, fun _ _ => ?_⟩⟩
  refine wp_flushBitmap_any trivial fun disk' => ?_
  simp

/-- A turn with an entry found takes the size of an entry off the directory. -/
theorem wp_deleteZones_turn {left i slot : Nat} {zones : Nat → Nat} {found : Option Nat}
    {Q : Unit → State → Prop} (hl : Layout s.sb) (hx : s.inodes p = some x)
    (hn : x.iNum < s.sb.sNinodes)
    (hslot : (lastMatch (sectorAt s.disk (zones i)) inodeNr).or found = some slot)
    (hQ : ∀ (t : State) (y : Inode) (zones' : Nat → Nat), t.sb = s.sb → t.inodes p = some y →
      y.iNum = x.iNum → y.iSize = u32Sub x.iSize 24 →
      wp (fun _ => True) (deleteZones p inodeNr left (i + 1) zones' (some slot)) Q t) :
    wp (fun _ => True) (deleteZones p inodeNr (left + 1) i zones found) Q s := by
  -- after either branch the inode may have other addresses, but the same size
  have hnext : ∀ (t : State) (zones' : Nat → Nat), t.sb = s.sb →
      (∃ y, t.inodes p = some y ∧ y.iSize = x.iSize ∧ y.iNum = x.iNum) →
      wp (fun _ => True) (shrinkSize p) (fun _ u =>
        wp (fun _ => True) (deleteZones p inodeNr left (i + 1) zones' (some slot)) Q u) t := by
    rintro t zones' hsb ⟨y, hy, hsize, hnum⟩
    rw [wp_shrinkSize (hsb ▸ hl) hy (by rw [hnum, hsb]; exact hn)]
    exact hQ _ (y.setSize (u32Sub y.iSize 24)) _ hsb (Function.update_self ..) hnum (by rw [← hsize])
  unfold sectorAt at hslot
  simp only [deleteZones, wp_bind, wp_ideRead, wp_get, wp_check, implies_true, and_true, hslot, wp_ite]
  refine fun _ _ => ⟨fun _ => ?_, fun _ => ?_⟩
  · refine wp_mono (wp_dropZone_size hx) ?_
    rintro zones' t ⟨hsb, hy⟩
    exact hnext t zones' hsb hy
  · simp only [wp_ideWrite, wp_pure, implies_true, and_true]
    exact fun _ => hnext _ zones rfl ⟨x, hx, rfl, rfl⟩

theorem deleteZones_size {left : Nat} :
    ∀ {s : State} {x : Inode} {i slot : Nat} {zones : Nat → Nat}, Layout s.sb →
      s.inodes p = some x → x.iNum < s.sb.sNinodes → x.iSize < 2 ^ 32 →
      wp (fun _ => True) (deleteZones p inodeNr left i zones (some slot)) (fun _ t =>
        ∃ y, t.inodes p = some y ∧ (y.iSize + 24 * left) % 2 ^ 32 = x.iSize) s := by
  induction left with
  | zero =>
    intro s x i slot zones _ hx _ hs
    exact ⟨x, hx, Nat.mod_eq_of_lt hs⟩
  | succ left ih =>
    intro s x i slot zones hl hx hn hs
    obtain ⟨slot', hslot⟩ : ∃ slot',
        (lastMatch (sectorAt s.disk (zones i)) inodeNr).or (some slot) = some slot' := by
      cases lastMatch (sectorAt s.disk (zones i)) inodeNr <;> simp
    refine wp_deleteZones_turn hl hx hn hslot fun t y zones' hsb hy hnum hsize => ?_
    have hlt : u32Sub x.iSize 24 < 2 ^ 32 := Nat.mod_lt _ (by norm_num)
    refine wp_mono (ih (hsb ▸ hl) hy (by rw [hsb, hnum]; exact hn) (by rw [hsize]; exact hlt)) ?_
    rintro - u ⟨z, hz, hzs⟩
    refine ⟨z, hz, ?_⟩
    simp only [u32Sub, hsize] at hzs
    omega

/-- From the first match on, the size shrinks once for every zone that is left. -/
theorem deleteZones_first_size {left i slot : Nat} {zones : Nat → Nat} (hl : Layout s.sb)
    (hx : s.inodes p = some x) (hn : x.iNum < s.sb.sNinodes)
    (hslot : lastMatch (sectorAt s.disk (zones i)) inodeNr = some slot) :
    wp (fun _ => True) (deleteZones p inodeNr (left + 1) i zones none) (fun _ t =>
      ∃ y, t.inodes p = some y ∧ (y.iSize + 24 * left) % 2 ^ 32 = u32Sub x.iSize 24) s := by
  refine wp_deleteZones_turn hl hx hn (by rw [hslot]; rfl) fun t y zones' hsb hy hnum hsize => ?_
  have hlt : u32Sub x.iSize 24 < 2 ^ 32 := Nat.mod_lt _ (by norm_num)
  rw [← hsize]
  exact deleteZones_size (hsb ▸ hl) hy (by rw [hsb, hnum]; exact hn) (by rw [hsize]; exact hlt)

/-! ## What the scan sees -/

theorem lastMatch_none {buf : Store} :
    lastMatch buf inodeNr = none ↔ ∀ i, i < perSector → (entryAt buf i).iNo ≠ inodeNr := by
  simp [lastMatch]

theorem lastMatch_some {buf : Store} {i : Nat} (h : lastMatch buf inodeNr = some i) :
    i < perSector ∧ (entryAt buf i).iNo = inodeNr := by
  have hm := List.mem_of_find?_eq_some h
  have hp := List.find?_some h
  exact ⟨by simpa using hm, by simpa using hp⟩

/-- The scan reads a zone's own address, or zero for a direct zone behind a missing one. -/
theorem scanZone_cases (disk : Store) (x : Inode) (k : Nat) :
    scanZone disk x k = zoneOf disk x k ∨ (k < 12 ∧ scanZone disk x k = 0) := by
  unfold scanZone zoneOf zoneArray
  by_cases hk : k < 12
  · simp only [hk, if_true, true_and, directPrefix]
    split
    · exact .inl rfl
    · exact .inr rfl
  · simp only [hk, if_false, false_and, or_false]

theorem scanZone_indirect {disk : Store} {k : Nat} (h : 12 ≤ k) :
    scanZone disk x k = zoneOf disk x k := by
  rcases scanZone_cases disk x k with h' | ⟨h', -⟩
  · exact h'
  · omega

namespace DirOk

theorem zone_le (h : DirOk s p x) {k : Nat} (hk : k < 140) : zoneOf s.disk x k ≤ maxLba := by
  by_cases hz : zoneOf s.disk x k = 0
  · omega
  · exact (h.zone k hk hz).2.1

theorem table_le (h : DirOk s p x) : x.iZones 12 ≤ maxLba := by
  by_cases hz : x.iZones 12 = 0
  · omega
  · exact (h.table hz).2.1

theorem scan_le (h : DirOk s p x) {k : Nat} (hk : k < 140) : scanZone s.disk x k ≤ maxLba := by
  rcases scanZone_cases s.disk x k with h' | ⟨-, h'⟩
  · rw [h']
    exact h.zone_le hk
  · omega

/-- The inode table ends before the data starts. -/
theorem inodeAddr_lt (h : DirOk s p x) :
    inodeAddr s.sb x.iNum + 100 ≤ 512 * s.sb.sDataStartLba := by
  have hi := h.layout.inodes
  have hd := h.layout.data
  have hn := h.num
  unfold inodeAddr
  omega

end DirOk

theorem wp_deleteDirEntry {pdir : Dir} {Q : Unit → State → Prop} (hd : DirOk s p x)
    (hp : pdir.inode = some p) :
    wp E (deleteDirEntry pdir inodeNr) Q s ↔
      wp E (deleteZones p inodeNr 140 0 (scanZone s.disk x) none) Q s := by
  simp only [deleteDirEntry, inodeAllZones, wp_bind, wp_need, hp, wp_inodeAt, hd.inode,
    Option.some.injEq, forall_eq', reduceCtorEq, false_implies, and_true, wp_readTable hd.table_le,
    wp_pure]
  rfl

/-! ## The last turn -/

/-- What the last turn cannot reach: the direct addresses, and the data sectors other than the
indirect table and the scanned one. -/
structure LastTurn (s t : State) (x y : Inode) : Prop where
  sb : t.sb = s.sb
  num : y.iNum = x.iNum
  direct : ∀ k, k < 12 → y.iZones k = x.iZones k
  table : y.iZones 12 = 0 ∨ y.iZones 12 = x.iZones 12
  sector : ∀ z, s.sb.sDataStartLba ≤ z → z ≠ x.iZones 12 → z ≠ scanZone s.disk x 139 →
    sectorAt t.disk z = sectorAt s.disk z

theorem sectorAt_low {disk src : Store} {lba z : Nat} (h : lba < z) :
    sectorAt (patch disk (512 * lba) 512 src) z = sectorAt disk z :=
  sectorAt_patch_out (by omega)

theorem sectorAt_other {disk src : Store} {lba z : Nat} (h : z ≠ lba) :
    sectorAt (patch disk (512 * lba) 512 src) z = sectorAt disk z :=
  sectorAt_patch_out (by omega)

/-- Dropping the last zone leaves its address zero. -/
theorem wp_dropZone_last (hd : DirOk s p x) :
    wp (fun _ => True) (dropZone p (scanZone s.disk x) 139) (fun _ t =>
      ∃ y, t.inodes p = some y ∧ LastTurn s t x y ∧ zoneOf t.disk y 139 = 0) s := by
  have hidx : u32Sub (scanZone s.disk x 139) s.sb.sDataStartLba < 4096 * s.sb.sZmapSz ∨
      u32Sub (scanZone s.disk x 139) s.sb.sDataStartLba = u32Sub 0 s.sb.sDataStartLba := by
    by_cases hz : scanZone s.disk x 139 = 0
    · exact .inr (by rw [hz])
    · rw [scanZone_indirect (by omega)] at hz ⊢
      obtain ⟨h1, h2, h3⟩ := hd.zone 139 (by omega) hz
      unfold maxLba at h2
      rw [u32Sub_of_le h1 (by omega)]
      exact .inl (by omega)
  simp only [dropZone, wp_bind, wp_get, wp_setBit_zone, implies_true, and_true]
  intro _
  refine wp_flushBitmap_low hd.layout hidx trivial fun lba src hlba => ?_
  change lba < s.sb.sDataStartLba at hlba
  simp only [wp_inodeAt, hd.inode, Option.some.injEq, forall_eq', wp_ite, wp_bind, wp_check, wp_setInode,
    wp_pure, wp_setBit_zone, implies_true, and_true]
  refine ⟨fun h => by omega, fun _ hcnt => ⟨fun _ => ?_, fun _ _ => ?_⟩⟩
  · -- the table is written back without the zone
    have htab : x.iZones 12 ≠ 0 := by
      intro h0
      have hzero : ∀ k, scanZone s.disk x (12 + k) = 0 := by
        intro k
        unfold scanZone zoneArray tableOf
        rw [if_neg (by omega), if_pos h0]
        split
        · exact le32_zero fun _ _ => rfl
        · rfl
      simp [hzero] at hcnt
    simp only [wp_ideWrite, Nat.mul_one, implies_true, and_true]
    intro _
    refine ⟨x, hd.inode, ⟨rfl, rfl, fun _ _ => rfl, .inr rfl, fun z hz hne _ => ?_⟩, ?_⟩
    · rw [sectorAt_other hne, sectorAt_low (by omega)]
    · unfold zoneOf zoneArray tableOf
      rw [if_neg (by omega), if_pos (by omega), if_neg htab]
      refine le32_zero fun i hi => ?_
      have hrow := @sectorAt_patch_self (patch s.disk (512 * lba) 512 src)
        (tableBytes (Function.update (scanZone s.disk x) 139 0)) (x.iZones 12)
        (i := 4 * (139 - 12) + i) (by omega)
      simp only [sectorAt] at hrow
      rw [hrow]
      unfold tableBytes
      rw [show 12 + (4 * (139 - 12) + i) / 4 = 139 by omega, Function.update_self, leByte_zero]
  · -- the table goes, too
    have hidx12 : u32Sub (x.iZones 12) s.sb.sDataStartLba < 4096 * s.sb.sZmapSz ∨
        u32Sub (x.iZones 12) s.sb.sDataStartLba = u32Sub 0 s.sb.sDataStartLba := by
      by_cases hz : x.iZones 12 = 0
      · exact .inr (by rw [hz])
      · obtain ⟨h1, h2, h3⟩ := hd.table hz
        unfold maxLba at h2
        rw [u32Sub_of_le h1 (by omega)]
        exact .inl (by omega)
    refine wp_flushBitmap_low hd.layout hidx12 trivial fun lba' src' hlba' => ?_
    change lba' < s.sb.sDataStartLba at hlba'
    refine ⟨x.setZone 12 0, Function.update_self .., ⟨rfl, rfl, fun k hk => if_neg (by omega),
      .inl rfl, fun z hz _ _ => ?_⟩, ?_⟩
    · rw [sectorAt_low (by omega), sectorAt_low (by omega)]
    · unfold zoneOf zoneArray tableOf
      rw [if_neg (by omega), if_pos (by omega)]
      exact le32_zero fun _ _ => rfl

/-- The state after the entry in slot `slot` of sector `z` is cleared. -/
def cleared (s : State) (p : Nat) (x : Inode) (z slot : Nat) : State :=
  let t := s.setDisk (patch s.disk (512 * z + 24 * slot) 24 fun _ => 0)
  let y := x.setSize (u32Sub x.iSize 24)
  (t.putInode p (some y)).setDisk (patch t.disk (inodeAddr s.sb x.iNum) 100 y.forDisk.toBytes)

theorem cleared_disk (s : State) (p : Nat) (x : Inode) (z slot : Nat) :
    (cleared s p x z slot).disk =
      patch (patch s.disk (512 * z + 24 * slot) 24 fun _ => 0) (inodeAddr s.sb x.iNum) 100
        (x.setSize (u32Sub x.iSize 24)).forDisk.toBytes := rfl

theorem patch_sector_slot {disk src : Store} {z slot : Nat} (h : slot < perSector) :
    patch disk (512 * z) 512 (patch (sectors disk z 1) (24 * slot) 24 src) =
      patch disk (512 * z + 24 * slot) 24 src := by
  unfold perSector at h
  rw [← patch_patch_inner (show 24 * slot + 24 ≤ 512 by omega)]
  refine patch_congr fun i hi => ?_
  unfold patch
  split
  · rfl
  · exact sectors_apply hi

/-- The last turn when its sector holds a slot that is neither `.` nor `..`. -/
theorem wp_lastTurn_clear {slot : Nat} {Q : Unit → State → Prop} (hd : DirOk s p x)
    (hhit : matchAt s.disk x inodeNr 139 = some slot)
    (hlink : zoneLink (sectorAt s.disk (scanZone s.disk x 139)) ≠ 0) :
    wp E (deleteZones p inodeNr 1 139 (scanZone s.disk x) none) Q s ↔
      (s.isProcess = false → Q () (cleared s p x (scanZone s.disk x 139) slot)) ∧
        (s.isProcess = true → E .fault) := by
  have hz := hd.scan_le (show 139 < 140 by omega)
  have hslot := (lastMatch_some hhit).1
  unfold matchAt sectorAt at hhit
  unfold sectorAt at hlink
  have hx1 := hd.inode
  have hshrink : ∀ d, wp E (shrinkSize p) Q (s.setDisk d) ↔
      Q () (((s.setDisk d).putInode p (some (x.setSize (u32Sub x.iSize 24)))).setDisk
        (patch d (inodeAddr s.sb x.iNum) 100 (x.setSize (u32Sub x.iSize 24)).forDisk.toBytes)) :=
    fun d => wp_shrinkSize hd.layout hx1 hd.num
  simp only [deleteZones, wp_bind, wp_ideRead_one hz, wp_get, hhit, reduceCtorEq, false_or, wp_check,
    Option.some_or, hlink, if_false, wp_ideWrite_one hz, wp_pure, patch_sector_slot hslot, hshrink,
    Bool.not_eq_false]
  rfl

theorem wp_lastTurn_frame {slot : Nat} (hd : DirOk s p x)
    (hhit : matchAt s.disk x inodeNr 139 = some slot) :
    wp (fun _ => True) (deleteZones p inodeNr 1 139 (scanZone s.disk x) none) (fun _ t =>
      ∃ y, t.inodes p = some y ∧ LastTurn s t x y ∧
        (zoneLink (sectorAt s.disk (scanZone s.disk x 139)) = 0 → zoneOf t.disk y 139 = 0)) s := by
  have haddr := hd.inodeAddr_lt
  by_cases hlink : zoneLink (sectorAt s.disk (scanZone s.disk x 139)) = 0
  · unfold matchAt sectorAt at hhit
    have hlink' := hlink
    unfold sectorAt at hlink'
    simp only [deleteZones, wp_bind, wp_ideRead, wp_get, hhit, wp_check, Option.some_or, hlink',
      if_true, implies_true, and_true]
    intro _ _
    refine wp_mono (wp_dropZone_last hd) ?_
    rintro _ t ⟨y, hy, hlast, hzero⟩
    rw [wp_shrinkSize (hlast.sb ▸ hd.layout) hy (by rw [hlast.sb, hlast.num]; exact hd.num), hlast.sb,
      hlast.num]
    have hkeep : ∀ z, s.sb.sDataStartLba ≤ z → sectorAt (patch t.disk (inodeAddr s.sb x.iNum) 100
        (y.setSize (u32Sub y.iSize 24)).forDisk.toBytes) z = sectorAt t.disk z :=
      fun z hz => sectorAt_patch_out (by omega)
    refine ⟨y.setSize (u32Sub y.iSize 24), Function.update_self .., ⟨hlast.sb, hlast.num, hlast.direct,
      hlast.table, fun z hz h1 h2 => (hkeep z hz).trans (hlast.sector z hz h1 h2)⟩, fun _ => ?_⟩
    rw [← hzero]
    refine zoneOf_congr (fun _ _ => rfl) (fun h0 => hkeep _ ?_) 139
    rcases hlast.table with h | h
    · exact absurd h h0
    · rw [h] at h0 ⊢
      exact (hd.table h0).1
  · rw [wp_lastTurn_clear hd hhit hlink]
    refine ⟨fun _ => ⟨_, Function.update_self .., ⟨rfl, rfl, fun _ _ => rfl, .inr rfl,
      fun z hz _ hne => ?_⟩, fun h => absurd h hlink⟩, fun _ => trivial⟩
    have hslot := (lastMatch_some hhit).1
    unfold perSector at hslot
    rw [cleared_disk, sectorAt_patch_out (by omega), sectorAt_patch_out (by omega)]

/-! ## The removal that is right -/

section Cleared

variable {slot : Nat}

theorem cleared_sector (hd : DirOk s p x) {z z' : Nat} (hs : slot < perSector)
    (hz : s.sb.sDataStartLba ≤ z') (hne : z' ≠ z) :
    sectorAt (cleared s p x z slot).disk z' = sectorAt s.disk z' := by
  have haddr := hd.inodeAddr_lt
  unfold perSector at hs
  rw [cleared_disk, sectorAt_patch_out (by omega), sectorAt_patch_out (by omega)]

/-- In the cleared sector only the bytes of the slot differ, and they are zero. -/
theorem cleared_byte (hd : DirOk s p x) {z i : Nat} (hz : s.sb.sDataStartLba ≤ z) (hi : i < 512) :
    sectorAt (cleared s p x z slot).disk z i =
      patch (sectorAt s.disk z) (24 * slot) 24 (fun _ => 0) i := by
  have haddr := hd.inodeAddr_lt
  rw [sectorAt_apply hi, cleared_disk, patch_out (by omega)]
  unfold patch
  by_cases h : 24 * slot ≤ i ∧ i < 24 * slot + 24
  · rw [if_pos h, if_pos (by omega)]
  · rw [if_neg h, if_neg (by omega), sectorAt_apply hi]

theorem entryAt_zero {b : Store} {i : Nat} (h : ∀ j, j < 24 → b (24 * i + j) = 0) :
    (entryAt b i).filename 0 = 0 ∧ (entryAt b i).iNo = 0 ∧ (entryAt b i).fType = 0 := by
  refine ⟨?_, le32_zero fun j hj => ?_, le32_zero fun j hj => ?_⟩
  · simp only [entryAt]
    exact h 0 (by omega)
  · rw [Nat.add_assoc]
    exact h _ (by omega)
  · rw [Nat.add_assoc]
    exact h _ (by omega)

theorem cleared_zone (hd : DirOk s p x) (hz : zoneOf s.disk x 139 ≠ 0) (hs : slot < perSector)
    (k : Nat) :
    zoneOf (cleared s p x (zoneOf s.disk x 139) slot).disk (x.setSize (u32Sub x.iSize 24)) k =
      zoneOf s.disk x k :=
  zoneOf_congr (fun _ _ => rfl) (fun h0 =>
    cleared_sector hd hs (hd.table h0).1 (hd.table_ne 139 (by omega) hz).symm) k

/-- Every other slot of the directory keeps its entry. -/
theorem cleared_others (hd : DirOk s p x) (hz : zoneOf s.disk x 139 ≠ 0) (hs : slot < perSector)
    {k i : Nat} (hne : (k, i) ≠ (139, slot)) :
    liveAt (cleared s p x (zoneOf s.disk x 139) slot).disk (x.setSize (u32Sub x.iSize 24)) k i =
      liveAt s.disk x k i := by
  have hzone := cleared_zone hd hz hs
  by_cases hk : k < 140 ∧ i < perSector ∧ zoneOf s.disk x k ≠ 0
  · refine liveAt_congr (hzone k) ?_
    by_cases h139 : k = 139
    · subst k
      unfold dirSlot
      rw [hzone]
      refine entryAt_congr fun j hj => ?_
      have hi : i ≠ slot := fun h => hne (by rw [h])
      have hlt := hk.2.1
      unfold perSector at hlt
      rw [cleared_byte hd (hd.zone 139 (by omega) hz).1 (by omega), patch_out (by omega)]
    · refine dirSlot_congr i (hzone k) (cleared_sector hd hs (hd.zone k hk.1 hk.2.2).1 fun h => h139 ?_)
      exact hd.inj k 139 hk.1 (by omega) hk.2.2 h
  · unfold liveAt
    rw [if_neg (by rw [hzone]; tauto), if_neg (by tauto)]

theorem cleared_removed (hd : DirOk s p x) (hz : zoneOf s.disk x 139 ≠ 0) (hs : slot < perSector)
    (hlive : isFree (dirSlot s.disk x 139 slot) = false)
    (hno : (dirSlot s.disk x 139 slot).iNo = inodeNr) :
    EntryRemoved s (cleared s p x (zoneOf s.disk x 139) slot) x (x.setSize (u32Sub x.iSize 24))
      inodeNr 139 slot := by
  have hdata := hd.zone 139 (by omega) hz
  have hzone := cleared_zone hd hz hs
  refine ⟨⟨_, liveAt_eq_some.mpr ⟨by omega, hs, hz, hlive, rfl⟩, hno⟩, ?_,
    fun k i => cleared_others hd hz hs, rfl, fun a ha => ?_, fun k hk => absurd (hzone k) hk,
    fun b hb => absurd rfl hb, rfl⟩
  · have hfree := entryAt_zero (b := sectorAt (cleared s p x (zoneOf s.disk x 139) slot).disk
      (zoneOf s.disk x 139)) (i := slot) fun j hj => by
        unfold perSector at hs
        rw [cleared_byte hd hdata.1 (by omega), patch_in (by omega)]
    unfold liveAt dirSlot
    rw [if_neg]
    rintro ⟨-, -, -, h⟩
    rw [hzone] at h
    simp [isFree, hfree] at h
  · unfold perSector at hs
    by_cases hin : inodeAddr s.sb x.iNum ≤ a ∧ a < inodeAddr s.sb x.iNum + 100
    · exact .inr (.inr (.inl hin))
    · refine .inl ?_
      rw [cleared_disk, patch_out (by omega)] at ha
      by_contra hne
      exact ha (patch_out (by omega))

end Cleared

/-! ## Exactly these removals are right -/

/-- Either the scan sees no match and there is none, or the only match it sees is a live entry of
the allocated zone 139, in a sector that holds more than `.` and `..`, and page 0 is mapped. -/
def DeleteFits (s : State) (x : Inode) (inodeNr : Nat) : Prop :=
  ((∀ k, k < 140 → matchAt s.disk x inodeNr k = none) ∧ ¬ HasEntry s.disk x inodeNr) ∨
    ((∀ k, k < 139 → matchAt s.disk x inodeNr k = none) ∧ s.isProcess = false ∧
      zoneOf s.disk x 139 ≠ 0 ∧ zoneLink (sectorAt s.disk (zoneOf s.disk x 139)) ≠ 0 ∧
      ∃ slot, matchAt s.disk x inodeNr 139 = some slot ∧
        isFree (dirSlot s.disk x 139 slot) = false)

/-- A live entry is seen by the scan, unless its zone lies behind a missing one. -/
theorem matchAt_of_live {k i : Nat} {e : DirEntry} (h : liveAt s.disk x k i = some e)
    (hno : e.iNo = inodeNr) :
    matchAt s.disk x inodeNr k ≠ none ∨ (k < 12 ∧ scanZone s.disk x k = 0) := by
  obtain ⟨-, hi, -, -, rfl⟩ := liveAt_eq_some.mp h
  rcases scanZone_cases s.disk x k with hk | hk
  · left
    unfold matchAt
    rw [hk, ne_eq, lastMatch_none]
    push Not
    exact ⟨i, hi, hno⟩
  · exact .inr hk

/-- An entry in a direct zone stays. -/
theorem LastTurn.live (hd : DirOk s p x) {t : State} {y : Inode} (h : LastTurn s t x y) {k i : Nat}
    {e : DirEntry} (hlive : liveAt s.disk x k i = some e) (hk : k < 12) :
    liveAt t.disk y k i = some e := by
  obtain ⟨hk140, -, hz, -, -⟩ := liveAt_eq_some.mp hlive
  rw [← hlive]
  have hzone : zoneOf t.disk y k = zoneOf s.disk x k := by
    rw [zoneOf_direct hk, zoneOf_direct hk, h.direct k hk]
  refine liveAt_congr hzone (dirSlot_congr i hzone ?_)
  refine h.sector _ (hd.zone k hk140 hz).1 (hd.table_ne k hk140 hz) fun heq => ?_
  rw [scanZone_indirect (by omega)] at heq
  have := hd.inj k 139 hk140 (by omega) hz heq
  omega

theorem zoneLink_zero {buf : Store} (h : zoneLink buf = 0) {i : Nat} (hi : i < perSector) :
    isFree (entryAt buf i) = false := by
  unfold zoneLink at h
  rw [List.countP_eq_zero] at h
  have hdots := h i (List.mem_range.mpr hi)
  simp only [isDots, strEq, dot, dotDot, Bool.not_eq_true', Bool.not_eq_false] at hdots
  unfold isFree
  by_cases h0 : (entryAt buf i).filename 0 = 0
  · rw [h0] at hdots
    simp at hdots
  · have hne : ((entryAt buf i).filename 0 == 0) = false := beq_eq_false_iff_ne.mpr h0
    rw [hne, Bool.false_and]

/-- Zones without a match are passed over from the start. -/
theorem wp_deleteZones_skipped (hd : DirOk s p x) {n : Nat} {Q : Unit → State → Prop} (hn : n ≤ 140)
    (hnone : ∀ k, k < n → matchAt s.disk x inodeNr k = none) :
    wp E (deleteZones p inodeNr 140 0 (scanZone s.disk x) none) Q s ↔
      wp E (deleteZones p inodeNr (140 - n) n (scanZone s.disk x) none) Q s := by
  have hsplit : (140 : Nat) = n + (140 - n) := by omega
  rw [congrArg (fun left => wp E (deleteZones p inodeNr left 0 (scanZone s.disk x) none) Q s) hsplit,
    wp_deleteZones_skip fun j _ hj => ⟨hd.scan_le (by omega), hnone j (by omega)⟩, Nat.zero_add]

/-- More than one entry's size is missing. -/
theorem size_mismatch {a b n : Nat} (hb : b < 2 ^ 32) (h0 : 0 < n) (hn : n ≤ 139)
    (h : (a + 24 * n) % 2 ^ 32 = u32Sub b 24) : a ≠ b ∧ a ≠ u32Sub b 24 := by
  unfold u32Sub at *
  omega

/-- Whatever a right call leaves, the scan met its first match in zone 139 or nowhere. -/
theorem first_match {t : State} (hd : DirOk s p x) (hs : x.iSize < 2 ^ 32)
    (hrun : deleteZones p inodeNr 140 0 (scanZone s.disk x) none s = .ok ((), t))
    (hspec : Deletes s t p x inodeNr) {k : Nat} (hk : k < 139) :
    matchAt s.disk x inodeNr k = none := by
  by_contra hmatch
  have hex : ∃ i, matchAt s.disk x inodeNr i ≠ none := ⟨k, hmatch⟩
  obtain ⟨i, hi, hmin⟩ : ∃ i, matchAt s.disk x inodeNr i ≠ none ∧
      ∀ j, j < i → matchAt s.disk x inodeNr j = none :=
    ⟨Nat.find hex, Nat.find_spec hex, fun j hj => not_not.mp (Nat.find_min hex hj)⟩
  have hik : i ≤ k := by
    by_contra h
    exact hmatch (hmin k (by omega))
  obtain ⟨slot, hslot⟩ := Option.ne_none_iff_exists'.mp hi
  have hsize : wp (fun _ => True) (deleteZones p inodeNr 140 0 (scanZone s.disk x) none)
      (fun _ t => ∃ y, t.inodes p = some y ∧
        (y.iSize + 24 * (139 - i)) % 2 ^ 32 = u32Sub x.iSize 24) s := by
    rw [wp_deleteZones_skipped hd (by omega) hmin, show 140 - i = 139 - i + 1 by omega]
    exact deleteZones_first_size hd.layout hd.inode hd.num hslot
  obtain ⟨y, hy, hys⟩ := wp_ok hsize hrun
  obtain ⟨hne, hne24⟩ := size_mismatch hs (by omega) (by omega) hys
  by_cases hh : HasEntry s.disk x inodeNr
  · obtain ⟨x', _, _, hx', hrem⟩ := hspec.1 hh
    rw [hy] at hx'
    cases hx'
    exact hne24 hrem.size
  · rw [hspec.2 hh, hd.inode] at hy
    cases hy
    exact hne rfl

/-- When the scan sees nothing, a right call had nothing to do. -/
theorem no_entry_of_no_match {t : State} (hd : DirOk s p x)
    (hrun : deleteZones p inodeNr 140 0 (scanZone s.disk x) none s = .ok ((), t))
    (hspec : Deletes s t p x inodeNr) (hall : ∀ k, k < 140 → matchAt s.disk x inodeNr k = none) :
    ¬ HasEntry s.disk x inodeNr := by
  intro hh
  have hpure : wp (fun _ => True) (deleteZones p inodeNr 140 0 (scanZone s.disk x) none)
      (fun _ t => t = s) s := (wp_deleteZones_skipped hd (Nat.le_refl _) hall).mpr rfl
  obtain rfl := wp_ok hpure hrun
  obtain ⟨x', k, i, hx', hrem⟩ := hspec.1 hh
  obtain ⟨e, he, -⟩ := hrem.target
  rw [hd.inode] at hx'
  cases hx'
  rw [hrem.gone] at he
  cases he

/-- When the first match is in the last zone, a right call removed a live entry of that zone. -/
theorem last_match {t : State} {slot : Nat} (hd : DirOk s p x)
    (hrun : deleteZones p inodeNr 1 139 (scanZone s.disk x) none s = .ok ((), t))
    (hspec : Deletes s t p x inodeNr) (hlow : ∀ k, k < 139 → matchAt s.disk x inodeNr k = none)
    (hslot : matchAt s.disk x inodeNr 139 = some slot) :
    s.isProcess = false ∧ zoneOf s.disk x 139 ≠ 0 ∧
      zoneLink (sectorAt s.disk (zoneOf s.disk x 139)) ≠ 0 ∧
      isFree (dirSlot s.disk x 139 slot) = false := by
  obtain ⟨y, hy, hlast, hdots⟩ := wp_ok (wp_lastTurn_frame hd hslot) hrun
  have hh : HasEntry s.disk x inodeNr := by
    by_contra hh
    obtain ⟨z, hz, hzs⟩ :=
      wp_ok (deleteZones_first_size hd.layout hd.inode hd.num hslot) hrun
    rw [hspec.2 hh, hd.inode] at hz
    cases hz
    unfold u32Sub at hzs
    omega
  obtain ⟨x', k, i, hx', hrem⟩ := hspec.1 hh
  rw [hy] at hx'
  cases hx'
  obtain ⟨e, he, hno⟩ := hrem.target
  obtain ⟨hk140, hi, hz, hlive, hentry⟩ := liveAt_eq_some.mp he
  have hk : k = 139 := by
    by_contra hne
    rcases matchAt_of_live he hno with hm | ⟨hk12, -⟩
    · exact hm (hlow k (by omega))
    · have := hlast.live hd he hk12
      rw [hrem.gone] at this
      cases this
  subst hk
  have hscan : scanZone s.disk x 139 = zoneOf s.disk x 139 := scanZone_indirect (by omega)
  rw [hscan] at hdots
  have hlink : zoneLink (sectorAt s.disk (zoneOf s.disk x 139)) ≠ 0 := by
    intro h0
    -- the zone would be gone with the entries of its other slots
    obtain ⟨i', hi', hne⟩ : ∃ i', i' < perSector ∧ i' ≠ i := by
      by_cases h : i = 0
      · exact ⟨1, by decide, by omega⟩
      · exact ⟨0, by decide, by omega⟩
    have hother := hrem.others 139 i' (by simpa using hne)
    rw [liveAt_eq_some.mpr ⟨hk140, hi', hz, zoneLink_zero h0 hi', rfl⟩] at hother
    exact (liveAt_eq_some.mp hother).2.2.1 (hdots h0)
  have hclear : ∀ {Q : Unit → State → Prop}, wp (fun _ => True)
      (deleteZones p inodeNr 1 139 (scanZone s.disk x) none) Q s ↔
        (s.isProcess = false → Q () (cleared s p x (scanZone s.disk x 139) slot)) ∧
          (s.isProcess = true → True) := wp_lastTurn_clear hd hslot (by rwa [hscan])
  have hproc : s.isProcess = false := by
    by_contra h
    exact wp_ok (Q := fun _ _ => False) (hclear.mpr ⟨fun h' => h h', fun _ => trivial⟩) hrun
  refine ⟨hproc, hz, hlink, ?_⟩
  have hend : t = cleared s p x (scanZone s.disk x 139) slot :=
    wp_ok (Q := fun _ u => u = _) (hclear.mpr ⟨fun _ => rfl, fun _ => trivial⟩) hrun
  rw [hscan] at hend
  subst hend
  rw [show (cleared s p x (zoneOf s.disk x 139) slot).inodes p =
    some (x.setSize (u32Sub x.iSize 24)) from Function.update_self ..] at hy
  cases hy
  by_contra hfree
  have hne : (139, i) ≠ (139, slot) := by
    rintro h
    rw [Prod.mk.injEq] at h
    rw [← h.2, hentry] at hfree
    exact hfree hlive
  have hkeep := cleared_others hd hz (lastMatch_some hslot).1 hne
  rw [hrem.gone, he] at hkeep
  cases hkeep

/-- A match before the last zone is never removed rightly. -/
theorem not_deletes_early {pdir : Dir} {k : Nat} (hd : DirOk s p x) (hp : pdir.inode = some p)
    (hs : x.iSize < 2 ^ 32) (hk : k < 139) (hmatch : matchAt s.disk x inodeNr k ≠ none) :
    ¬ ∃ t, deleteDirEntry pdir inodeNr s = .ok ((), t) ∧ Deletes s t p x inodeNr := by
  rintro ⟨t, hrun, hspec⟩
  have hzones : deleteZones p inodeNr 140 0 (scanZone s.disk x) none s = .ok ((), t) :=
    run_eq_of_wp ((wp_deleteDirEntry hd hp).mp ((wp_of_ok hrun).mpr ⟨rfl, rfl⟩))
  exact hmatch (first_match hd hs hzones hspec hk)

/-- `delete_dir_entry` does what was asked for exactly when the call fits. -/
theorem deleteDirEntry_exact {pdir : Dir} (hd : DirOk s p x) (hp : pdir.inode = some p)
    (hs : x.iSize < 2 ^ 32) (inodeNr : Nat) :
    (∃ t, deleteDirEntry pdir inodeNr s = .ok ((), t) ∧ Deletes s t p x inodeNr) ↔
      DeleteFits s x inodeNr := by
  constructor
  · rintro ⟨t, hrun, hspec⟩
    have hzones : deleteZones p inodeNr 140 0 (scanZone s.disk x) none s = .ok ((), t) :=
      run_eq_of_wp ((wp_deleteDirEntry hd hp).mp ((wp_of_ok hrun).mpr ⟨rfl, rfl⟩))
    have hlow : ∀ k, k < 139 → matchAt s.disk x inodeNr k = none :=
      fun k hk => first_match hd hs hzones hspec hk
    cases h139 : matchAt s.disk x inodeNr 139 with
    | none =>
      have hall : ∀ k, k < 140 → matchAt s.disk x inodeNr k = none := by
        intro k hk
        by_cases h : k < 139
        · exact hlow k h
        · rw [show k = 139 by omega, h139]
      exact .inl ⟨hall, no_entry_of_no_match hd hzones hspec hall⟩
    | some slot =>
      have hturn : deleteZones p inodeNr 1 139 (scanZone s.disk x) none s = .ok ((), t) :=
        run_eq_of_wp ((wp_deleteZones_skipped (n := 139) hd (by omega) hlow).mp
          ((wp_of_ok hzones).mpr ⟨rfl, rfl⟩))
      obtain ⟨hproc, hz, hlink, hlive⟩ := last_match hd hturn hspec hlow h139
      exact .inr ⟨hlow, hproc, hz, hlink, slot, h139, hlive⟩
  · rintro (⟨hall, hh⟩ | ⟨hlow, hproc, hz, hlink, slot, hslot, hlive⟩)
    · refine ⟨s, run_eq_of_wp ?_, fun h => absurd h hh, fun _ => rfl⟩
      rw [wp_deleteDirEntry hd hp]
      exact (wp_deleteZones_skipped hd (Nat.le_refl _) hall).mpr ((wp_pure ()).mpr ⟨rfl, rfl⟩)
    · have hscan : scanZone s.disk x 139 = zoneOf s.disk x 139 := scanZone_indirect (by omega)
      have hno := lastMatch_some hslot
      rw [hscan] at hno
      refine ⟨cleared s p x (zoneOf s.disk x 139) slot, run_eq_of_wp ?_, fun _ => ?_, fun hh => ?_⟩
      · rw [wp_deleteDirEntry hd hp]
        refine (wp_deleteZones_skipped (n := 139) hd (by omega) hlow).mpr ?_
        rw [wp_lastTurn_clear hd hslot (by rwa [hscan]), hscan]
        exact ⟨fun _ => ⟨rfl, rfl⟩, fun h => by simp [hproc] at h⟩
      · exact ⟨_, 139, slot, Function.update_self .., cleared_removed hd hz hno.1 hlive hno.2⟩
      · exact absurd ⟨139, slot, _, liveAt_eq_some.mpr ⟨by omega, hno.1, hz, hlive, rfl⟩, hno.2⟩ hh

/-! ## Two entries in one sector -/

def twoEntries : Store :=
  putEntry (putEntry (fun _ => 0) 0 (entryOf [97#8] 7 .regular)) 1 (entryOf [98#8] 8 .regular)

/-- Inode 7 has an entry in the first zone. The loop clears slot 0 of sector 0 as well, and takes
140 entries off the size. -/
theorem deleteDirEntry_first_zone :
    DirOk (oneZone twoEntries) 1 zoneDir ∧ HasEntry (oneZone twoEntries).disk zoneDir 7 ∧
      ¬ ∃ t, deleteDirEntry { inode := some 1, dirPos := 0, dirBuf := fun _ => 0 } 7
          (oneZone twoEntries) = .ok ((), t) ∧ Deletes (oneZone twoEntries) t 1 zoneDir 7 := by
  refine ⟨oneZone_ok twoEntries, ⟨0, 0, _, liveAt_eq_some.mpr ⟨by decide, by decide, by decide,
    by decide +kernel, rfl⟩, by decide +kernel⟩, ?_⟩
  exact not_deletes_early (oneZone_ok twoEntries) rfl (by decide) (show 0 < 139 by decide)
    (by decide +kernel)

/-! ## An entry in the last zone -/

/-- The directory with the table in sector 901. -/
def farDir : Inode := zoneDir.setZone 12 901

/-- Only the last word of the table is an address. -/
def farTable : Store := fun o => leByte (if o / 4 = 127 then 902 else 0) (o % 4)

/-- The last zone, sector 902, holds an entry of inode 9. -/
def farZone : State :=
  { oneZone twoEntries with
    disk := patch (patch (oneZone twoEntries).disk (512 * 901) 512 farTable) (512 * 902) 512
      (putEntry (fun _ => 0) 3 (entryOf [122#8] 9 .regular))
    inodes := Function.update (fun _ => none) 1 (some farDir) }

theorem farZone_table {o : Nat} (h : o < 512) : tableOf farZone.disk farDir o = farTable o := by
  have hne : farDir.iZones 12 ≠ 0 := by decide
  rw [tableOf, if_neg hne]
  change sectorAt _ 901 o = _
  unfold farZone
  rw [sectorAt_patch_out (by omega), sectorAt_patch_self h]

theorem zoneOf_farDir {k : Nat} (hk : k < 140) :
    zoneOf farZone.disk farDir k = if k = 0 then 900 else if k = 139 then 902 else 0 := by
  unfold zoneOf zoneArray
  by_cases h12 : k < 12
  · rw [if_pos h12]
    have hz : farDir.iZones k = zoneOf farZone.disk zoneDir k := by
      rw [zoneOf_direct h12]
      exact if_neg (by omega)
    rw [hz, zoneOf_zoneDir, if_neg (show k ≠ 139 by omega)]
  · rw [if_neg h12, if_pos hk, if_neg (by omega)]
    refine le32_of_bytes_lt (by split <;> decide) fun j hj => ?_
    rw [farZone_table (by omega), farTable, show (4 * (k - 12) + j) / 4 = k - 12 by omega,
      show (4 * (k - 12) + j) % 4 = j by omega]
    by_cases h139 : k = 139
    · rw [if_pos h139, if_pos (by omega)]
    · rw [if_neg h139, if_neg (by omega)]

theorem farZone_ok : DirOk farZone 1 farDir where
  layout := layout_small
  mapLen := show 512 = 512 * (formatBlock 0 4000).sZmapSz by decide +kernel
  inode := rfl
  num := show 5 < 4096 by decide
  zone k hk h := by
    have hin : InData (formatBlock 0 4000) 900 ∧ InData (formatBlock 0 4000) 902 := by
      unfold InData
      decide +kernel
    rw [zoneOf_farDir hk] at h ⊢
    split
    · exact hin.1
    · rw [if_neg ‹_›] at h
      split
      · exact hin.2
      · rw [if_neg ‹_›] at h
        exact absurd rfl h
  table _ := by
    change InData (formatBlock 0 4000) 901
    unfold InData
    decide +kernel
  inj j k hj hk h hjk := by
    rw [zoneOf_farDir hj] at h hjk
    rw [zoneOf_farDir hk] at hjk
    split_ifs at h hjk <;> omega
  table_ne k hk h := by
    change _ ≠ 901
    rw [zoneOf_farDir hk]
    split_ifs <;> decide

/-- The scan reads the first zone, the last one and sector 0. -/
theorem farZone_scan {k : Nat} (hk : k < 139) : matchAt farZone.disk farDir 9 k = none := by
  have hz : scanZone farZone.disk farDir k = 900 ∨ scanZone farZone.disk farDir k = 0 := by
    rcases scanZone_cases farZone.disk farDir k with h | ⟨-, h⟩
    · rw [h, zoneOf_farDir (by omega), if_neg (show k ≠ 139 by omega)]
      split <;> simp
    · exact .inr h
  unfold matchAt
  rcases hz with h | h <;> rw [h] <;> decide +kernel

theorem deleteDirEntry_exact_last_zone :
    ∃ t, deleteDirEntry { inode := some 1, dirPos := 0, dirBuf := fun _ => 0 } 9 farZone = .ok ((), t) ∧
      Deletes farZone t 1 farDir 9 := by
  have hz : zoneOf farZone.disk farDir 139 = 902 := zoneOf_farDir (by decide)
  refine (deleteDirEntry_exact farZone_ok rfl (by decide) 9).mpr
    (.inr ⟨fun k hk => farZone_scan hk, rfl, ?_⟩)
  unfold matchAt dirSlot
  rw [scanZone_indirect (by decide), hz]
  exact ⟨by decide, by decide +kernel, 3, by decide +kernel, by decide +kernel⟩

end Frog.Fs
