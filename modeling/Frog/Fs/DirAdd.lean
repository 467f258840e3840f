import Frog.Fs.DirState

/-!
# Adding a directory entry

`flush_dir_entry` looks for a free slot in the allocated zones. For every address that is missing
on the way it takes a zone and goes on without using it: a direct one is recorded, one behind the
indirect table is not. What such a zone held before becomes part of the directory.
-/

namespace Frog.Fs

set_option autoImplicit false
open Bytes Prog

variable {E : Stop → Prop} {s t : State} {p : Nat} {x y : Inode} {e : DirEntry} {zs : Nat → Nat}

/-! ## One step of the scan -/

/-- What the loop relies on: the addresses it was given and the direct ones in the inode are
data sectors in use. -/
structure FlushOk (s : State) (p : Nat) (x : Inode) (zs : Nat → Nat) : Prop where
  layout : Layout s.sb
  map : ZoneMapOk s
  inode : s.inodes p = some x
  data : ∀ k, zs k ≠ 0 → InData s.sb (zs k)
  used : ∀ k, zs k ≠ 0 → s.zoneBitmap.getValue (zs k - s.sb.sDataStartLba) = true
  direct : ∀ k, k < 12 → x.iZones k ≠ 0 → s.sb.sDataStartLba ≤ x.iZones k ∧
    s.zoneBitmap.getValue (x.iZones k - s.sb.sDataStartLba) = true

/-- How many addresses from `i` up to `f` are missing. -/
def missing (zs : Nat → Nat) (i f : Nat) : Nat := (List.range' i (f - i)).countP fun k => zs k = 0

theorem missing_self (zs : Nat → Nat) (f : Nat) : missing zs f f = 0 := by
  simp [missing]

theorem missing_step {i f : Nat} (h : i < f) :
    missing zs i f = missing zs (i + 1) f + if zs i = 0 then 1 else 0 := by
  unfold missing
  rw [show f - i = (f - (i + 1)) + 1 by omega, List.range'_succ, List.countP_cons]
  simp

/-- The state and the inode after the zone for a missing address is taken. -/
def recorded (x : Inode) (i lba : Nat) : Inode := if i < 12 then x.setZone i lba else x

namespace FlushOk

/-- A zone that is taken was not in use and is in use afterwards. -/
theorem took (h : FlushOk s p x zs) (i idx : Nat) :
    FlushOk ((s.tookZone idx).putInode p (some (recorded x i (s.sb.sDataStartLba + idx)))) p
      (recorded x i (s.sb.sDataStartLba + idx)) zs where
  layout := h.layout
  map := by
    refine ⟨h.map.len, fun b hb hc => h.map.pad b hb ?_⟩
    simp only [Bitmap.getValue_setValue] at hc
    split at hc
    · cases hc
    · exact hc
  inode := Function.update_self ..
  data := h.data
  used k hk := by
    have hset := h.used k hk
    simp only [Bitmap.getValue_setValue]
    split
    · rfl
    · exact hset
  direct k hk hne := by
    simp only [Bitmap.getValue_setValue]
    by_cases hi : i < 12 ∧ k = i
    · have hz : (recorded x i (s.sb.sDataStartLba + idx)).iZones k = s.sb.sDataStartLba + idx := by
        simp [recorded, hi.1, hi.2]
      rw [hz, Nat.add_sub_cancel_left, if_pos rfl]
      exact ⟨by omega, rfl⟩
    · have hz : (recorded x i (s.sb.sDataStartLba + idx)).iZones k = x.iZones k := by
        unfold recorded
        split
        · exact if_neg (by tauto)
        · rfl
      rw [hz] at hne ⊢
      obtain ⟨h1, h2⟩ := h.direct k hk hne
      refine ⟨h1, ?_⟩
      split
      · rfl
      · exact h2

theorem zone_le (h : FlushOk s p x zs) (k : Nat) : zs k ≤ maxLba := by
  by_cases hk : zs k = 0
  · omega
  · exact (h.data k hk).2.1

/-- The data sectors do not see the bitmap's flush. -/
theorem took_sector (h : FlushOk s p x zs) {idx z : Nat} (hf : s.zoneBitmap.findBlock 1 = some idx)
    (hz : s.sb.sDataStartLba ≤ z) : sectorAt (s.tookZone idx).disk z = sectorAt s.disk z := by
  have hi := (Bitmap.findBlock_one hf).1
  have hlen := h.map.len
  have hd := h.layout.bounds
  exact tookZone_sector h.layout (by omega) (by omega)

end FlushOk

/-- One turn at a missing address. -/
theorem wp_flushZones_missing {left i : Nat} {Q : Bool → State → Prop} (h : FlushOk s p x zs)
    (hz : zs i = 0) :
    wp E (flushZones p e zs (left + 1) i) Q s ↔
      (∀ idx, s.zoneBitmap.findBlock 1 = some idx → wp E (flushZones p e zs left (i + 1)) Q
        ((s.tookZone idx).putInode p (some (recorded x i (s.sb.sDataStartLba + idx))))) ∧
        (s.zoneBitmap.findBlock 1 = none → E .panic) := by
  have hdata := h.layout.data_gt
  cases hf : s.zoneBitmap.findBlock 1 with
  | none =>
    simp only [flushZones, hz, if_true, takeZone, wp_bind, wp_takeFreeZone h.layout h.map.len, hf,
      wp_need, reduceCtorEq, false_implies, implies_true, true_implies, true_and]
  | some idx =>
    have hne : s.sb.sDataStartLba + idx ≠ 12 := by omega
    simp only [flushZones, hz, if_true, takeZone, wp_bind, wp_takeFreeZone h.layout h.map.len, hf,
      wp_need, Option.some.injEq, forall_eq', reduceCtorEq, false_implies, and_true, wp_ite, hne,
      not_false_eq_true, true_implies, wp_inodeAt, h.inode, wp_setInode]
    unfold recorded
    by_cases hi : i < 12
    · simp only [hi, true_implies, not_true_eq_false, false_implies, and_true, if_true]
    · have hself : (s.tookZone idx).putInode p (some x) = s.tookZone idx := by
        have : Function.update s.inodes p (some x) = s.inodes := by
          rw [← h.inode]
          exact Function.update_eq_self ..
        simp only [State.putInode, State.tookZone, State.setDisk, State.setZoneMap, this]
      simp only [hi, false_implies, true_and, not_false_eq_true, true_implies, if_false, hself]

/-- The state after the entry is written to slot `slot` of sector `z`. -/
abbrev putAt (s : State) (p : Nat) (x : Inode) (e : DirEntry) (z slot : Nat) : State :=
  (s.setDisk (patch s.disk (512 * z) 512 (putEntry (sectorAt s.disk z) slot e))).putInode p
    (some (x.setSize (u32 (x.iSize + 24))))

/-- One turn at an allocated zone. -/
theorem wp_flushZones_alloc {left i : Nat} {Q : Bool → State → Prop} (hx : s.inodes p = some x)
    (hle : zs i ≤ maxLba) (hz : zs i ≠ 0) :
    wp E (flushZones p e zs (left + 1) i) Q s ↔
      match freeSlot (sectorAt s.disk (zs i)) with
      | some slot => Q true (putAt s p x e (zs i) slot)
      | none => wp E (flushZones p e zs left (i + 1)) Q s := by
  simp only [flushZones, hz, if_false, wp_bind, wp_ideRead_one hle]
  unfold sectorAt
  cases freeSlot (sectors s.disk (zs i) 1) with
  | none => rfl
  | some slot =>
    simp only [wp_bind, wp_ideWrite_one hle, growSize, wp_inodeAt, hx, Option.some.injEq,
      forall_eq', reduceCtorEq, false_implies, and_true, wp_setInode, wp_pure]
    rfl

/-- Full zones are passed over. -/
theorem wp_flushZones_full {left m : Nat} {Q : Bool → State → Prop} (hx : s.inodes p = some x) :
    ∀ {i : Nat}, (∀ k, i ≤ k → k < i + m →
        zs k ≤ maxLba ∧ zs k ≠ 0 ∧ freeSlot (sectorAt s.disk (zs k)) = none) →
      (wp E (flushZones p e zs (m + left) i) Q s ↔ wp E (flushZones p e zs left (i + m)) Q s) := by
  induction m with
  | zero =>
    intro i _
    simp
  | succ m ih =>
    intro i h
    obtain ⟨hle, hz, hfull⟩ := h i (by omega) (by omega)
    rw [show m + 1 + left = m + left + 1 by omega, wp_flushZones_alloc hx hle hz, hfull]
    simp only []
    rw [ih fun k h1 h2 => h k (by omega) (by omega), show i + 1 + m = i + (m + 1) by omega]

/-! ## What a successful scan has done -/

/-- The entry went to slot `slot` of zone `f`, the first allocated one with a free slot, and the
zones of `bits` were taken on the way. -/
structure AddRun (s t : State) (p : Nat) (x y : Inode) (e : DirEntry) (zs : Nat → Nat)
    (i f slot : Nat) (bits : List Nat) : Prop where
  le : i ≤ f
  alloc : zs f ≠ 0
  free : freeSlot (sectorAt s.disk (zs f)) = some slot
  full : ∀ k, i ≤ k → k < f → zs k ≠ 0 → freeSlot (sectorAt s.disk (zs k)) = none
  taken : s.zoneBitmap.firstClear (missing zs i f) = some bits
  clear : ∀ b, b ∈ bits → b < 4096 * s.sb.sZmapSz ∧ s.zoneBitmap.getValue b = false
  inode : t.inodes p = some y
  size : y.iSize = u32 (x.iSize + 24)
  direct : ∀ k, i ≤ k → k < f → zs k = 0 → k < 12 → ∃ b, b ∈ bits ∧ y.iZones k = s.sb.sDataStartLba + b
  back : ∀ b, b ∈ bits →
    ∃ k, i ≤ k ∧ k < f ∧ zs k = 0 ∧ (k < 12 → y.iZones k = s.sb.sDataStartLba + b)
  leak : ∀ k, i ≤ k → k < f → zs k = 0 → 12 ≤ k →
    ∃ b, b ∈ bits ∧ ∀ j, j < 12 → y.iZones j ≠ s.sb.sDataStartLba + b
  keep : ∀ k, (k < i ∨ zs k ≠ 0 ∨ f ≤ k ∨ 12 ≤ k) → y.iZones k = x.iZones k
  bit : ∀ b, t.zoneBitmap.getValue b = true ↔ s.zoneBitmap.getValue b = true ∨ b ∈ bits
  sector : ∀ z, s.sb.sDataStartLba ≤ z → z ≠ zs f → sectorAt t.disk z = sectorAt s.disk z
  slotSector : ∀ j, j < 512 →
    sectorAt t.disk (zs f) j = putEntry (sectorAt s.disk (zs f)) slot e j

namespace AddRun

variable {i f slot idx : Nat} {bits : List Nat}

/-- The zone at hand has a free slot. -/
theorem here (ha : zs i ≠ 0) (hfree : freeSlot (sectorAt s.disk (zs i)) = some slot) :
    AddRun s (putAt s p x e (zs i) slot) p x (x.setSize (u32 (x.iSize + 24))) e zs i i slot []
    where
  le := Nat.le_refl i
  alloc := ha
  free := hfree
  full k h1 h2 := by omega
  taken := by rw [missing_self]; rfl
  clear b hb := by cases hb
  inode := Function.update_self ..
  size := rfl
  direct k h1 h2 := by omega
  back b hb := by cases hb
  leak k h1 h2 := by omega
  keep k _ := rfl
  bit b := by simp
  sector z _ hz := sectorAt_patch_out (by omega)
  slotSector j hj := sectorAt_patch_self hj

/-- A full zone before. -/
theorem skip (h : AddRun s t p x y e zs (i + 1) f slot bits) (ha : zs i ≠ 0)
    (hfull : freeSlot (sectorAt s.disk (zs i)) = none) : AddRun s t p x y e zs i f slot bits where
  le := Nat.le_of_succ_le h.le
  alloc := h.alloc
  free := h.free
  full k h1 h2 hz := by
    by_cases hk : k = i
    · rw [hk, hfull]
    · exact h.full k (by omega) h2 hz
  taken := by
    have := h.le
    rw [missing_step (by omega), if_neg ha, Nat.add_zero]
    exact h.taken
  clear := h.clear
  inode := h.inode
  size := h.size
  direct k h1 h2 hz := h.direct k (by grind) h2 hz
  back b hb := by
    obtain ⟨k, h1, h2⟩ := h.back b hb
    exact ⟨k, by omega, h2⟩
  leak k h1 h2 hz := h.leak k (by grind) h2 hz
  keep k hk := h.keep k (by omega)
  bit := h.bit
  sector := h.sector
  slotSector := h.slotSector

theorem skip_all {m : Nat} : ∀ {i : Nat}, AddRun s t p x y e zs (i + m) f slot bits →
    (∀ k, i ≤ k → k < i + m → zs k ≠ 0 ∧ freeSlot (sectorAt s.disk (zs k)) = none) →
      AddRun s t p x y e zs i f slot bits := by
  induction m with
  | zero =>
    intro i h _
    exact h
  | succ m ih =>
    intro i h hfull
    have hi := hfull i (by omega) (by omega)
    refine skip (ih ?_ fun k h1 h2 => hfull k (by omega) (by omega)) hi.1 hi.2
    rwa [show i + 1 + m = i + (m + 1) by omega]

/-- A missing address before. -/
theorem cons (hok : FlushOk s p x zs) (hf : s.zoneBitmap.findBlock 1 = some idx) (hz : zs i = 0)
    (h : AddRun ((s.tookZone idx).putInode p (some (recorded x i (s.sb.sDataStartLba + idx)))) t p
      (recorded x i (s.sb.sDataStartLba + idx)) y e zs (i + 1) f slot bits) :
    AddRun s t p x y e zs i f slot (idx :: bits) where
  le := Nat.le_of_succ_le h.le
  alloc := h.alloc
  free := by
    rw [← hok.took_sector hf (hok.data f h.alloc).1]
    exact h.free
  full k h1 h2 hk := by
    rw [← hok.took_sector hf (hok.data k hk).1]
    exact h.full k (by grind) h2 hk
  taken := by
    have := h.le
    rw [missing_step (by omega), if_pos hz, Bitmap.firstClear_succ hf]
    exact congrArg (Option.map (idx :: ·)) h.taken
  clear b hb := by
    have hfirst := Bitmap.findBlock_one hf
    have hlen := hok.map.len
    rcases List.mem_cons.mp hb with rfl | hb
    · exact ⟨by omega, hfirst.2.1⟩
    · obtain ⟨h1, h2⟩ := h.clear b hb
      refine ⟨h1, ?_⟩
      simp only [Bitmap.getValue_setValue] at h2
      split at h2
      · cases h2
      · exact h2
  inode := h.inode
  size := by
    rw [h.size]
    unfold recorded
    split <;> rfl
  direct k h1 h2 hk h12 := by
    by_cases hki : k = i
    · subst k
      refine ⟨idx, List.mem_cons_self, ?_⟩
      rw [h.keep i (by omega)]
      simp [recorded, h12]
    · obtain ⟨b, hb, hy⟩ := h.direct k (by omega) h2 hk h12
      exact ⟨b, List.mem_cons_of_mem _ hb, hy⟩
  back b hb := by
    have := h.le
    rcases List.mem_cons.mp hb with rfl | hb
    · refine ⟨i, Nat.le_refl i, by omega, hz, fun h12 => ?_⟩
      rw [h.keep i (by omega)]
      simp [recorded, h12]
    · obtain ⟨k, h1, h2⟩ := h.back b hb
      exact ⟨k, by omega, h2⟩
  leak k h1 h2 hk h12 := by
    by_cases hki : k = i
    · subst k
      refine ⟨idx, List.mem_cons_self, fun j hj heq => ?_⟩
      -- the direct addresses were all in use when the zone was taken
      rw [h.keep j (by omega), recorded, if_neg (by omega)] at heq
      have hpos := hok.layout.data_gt
      obtain ⟨-, hset⟩ := hok.direct j hj (by omega)
      rw [heq, Nat.add_sub_cancel_left, (Bitmap.findBlock_one hf).2.1] at hset
      cases hset
    · obtain ⟨b, hb, hy⟩ := h.leak k (by omega) h2 hk h12
      exact ⟨b, List.mem_cons_of_mem _ hb, hy⟩
  keep k hk := by
    have := h.le
    have hki : k ≠ i ∨ 12 ≤ k := by
      by_contra hcon
      push Not at hcon
      obtain ⟨rfl, h12⟩ := hcon
      rcases hk with hk | hk | hk | hk
      · omega
      · exact hk hz
      · omega
      · omega
    rw [h.keep k (by omega)]
    unfold recorded
    split
    · exact if_neg (by omega)
    · rfl
  bit b := by
    rw [h.bit b, List.mem_cons]
    simp only [Bitmap.getValue_setValue]
    by_cases hb : b = idx <;> simp [hb]
  sector z h1 h2 := by
    rw [h.sector z h1 h2]
    exact hok.took_sector hf h1
  slotSector j hj := by
    rw [h.slotSector j hj, ← hok.took_sector hf (hok.data f h.alloc).1]

end AddRun

/-- A scan that reports success has added the entry in the first free slot it came to. -/
theorem wp_flushZones {left : Nat} :
    ∀ {s : State} {x : Inode} {i : Nat}, FlushOk s p x zs →
      wp (fun _ => True) (flushZones p e zs left i) (fun r t => r = true →
        ∃ y f slot bits, f < i + left ∧ AddRun s t p x y e zs i f slot bits) s := by
  induction left with
  | zero =>
    intro s x i _ h
    cases h
  | succ left ih =>
    intro s x i hok
    by_cases hz : zs i = 0
    · rw [wp_flushZones_missing hok hz]
      refine ⟨fun idx hf => wp_mono (ih (hok.took i idx)) ?_, fun _ => trivial⟩
      rintro r t hrun hr
      obtain ⟨y, f, slot, bits, hlt, hadd⟩ := hrun hr
      exact ⟨y, f, slot, idx :: bits, by omega, hadd.cons hok hf hz⟩
    · rw [wp_flushZones_alloc hok.inode (hok.zone_le i) hz]
      cases hfree : freeSlot (sectorAt s.disk (zs i)) with
      | some slot =>
        exact fun _ => ⟨_, i, slot, [], by omega, .here hz hfree⟩
      | none =>
        refine wp_mono (ih hok) ?_
        rintro r t hrun hr
        obtain ⟨y, f, slot, bits, hlt, hadd⟩ := hrun hr
        exact ⟨y, f, slot, bits, by omega, hadd.skip hz hfree⟩

/-! ## When the scan succeeds -/

/-- With a free slot in zone `f` and enough zones for the missing addresses before it, the scan
comes through. -/
theorem flushZones_returns {left f : Nat} :
    ∀ {s : State} {x : Inode} {i : Nat} {bits : List Nat}, FlushOk s p x zs → i ≤ f → f < i + left →
      zs f ≠ 0 → freeSlot (sectorAt s.disk (zs f)) ≠ none →
      s.zoneBitmap.firstClear (missing zs i f) = some bits →
      wp (fun _ => False) (flushZones p e zs left i) (fun r _ => r = true) s := by
  induction left with
  | zero =>
    intro s x i bits _ h1 h2
    omega
  | succ left ih =>
    intro s x i bits hok h1 h2 hf hfree hclear
    by_cases hz : zs i = 0
    · have hlt : i < f := by
        by_contra h
        exact hf (by rwa [show f = i by omega])
      rw [missing_step hlt, if_pos hz, Bitmap.firstClear_succ_eq_some] at hclear
      obtain ⟨idx, rest, hidx, hrest, -⟩ := hclear
      rw [wp_flushZones_missing hok hz]
      refine ⟨fun idx' hidx' => ?_, fun h => by rw [hidx] at h; cases h⟩
      rw [hidx] at hidx'
      cases hidx'
      refine @ih _ _ _ rest (hok.took i idx) (by omega) (by omega) hf ?_ hrest
      rwa [show sectorAt _ (zs f) = sectorAt s.disk (zs f) from hok.took_sector hidx (hok.data f hf).1]
    · rw [wp_flushZones_alloc hok.inode (hok.zone_le i) hz]
      cases hslot : freeSlot (sectorAt s.disk (zs i)) with
      | some slot => exact rfl
      | none =>
        have hlt : i < f := by
          by_contra h
          exact hfree (by rwa [show f = i by omega])
        rw [missing_step hlt, if_neg hz, Nat.add_zero] at hclear
        exact ih hok (by omega) (by omega) hf hfree hclear

/-! ## The whole call -/

/-- The zones and the table of a directory are marked in the zone bitmap. -/
structure ZonesUsed (s : State) (x : Inode) : Prop where
  zone : ∀ k, zoneOf s.disk x k ≠ 0 →
    s.zoneBitmap.getValue (zoneOf s.disk x k - s.sb.sDataStartLba) = true
  table : x.iZones 12 ≠ 0 → s.zoneBitmap.getValue (x.iZones 12 - s.sb.sDataStartLba) = true

/-- The directory holds the old entries and the new one, and every zone newly marked is recorded
in its inode or its indirect table. -/
structure EntryAdded (s t : State) (x y : Inode) (e : DirEntry) : Prop where
  slot : ∃ k i, liveAt s.disk x k i = none ∧ liveAt t.disk y k i = some e ∧
    ∀ k' i', (k', i') ≠ (k, i) → liveAt t.disk y k' i' = liveAt s.disk x k' i'
  size : y.iSize = u32 (x.iSize + 24)
  kept : ∀ b, s.zoneBitmap.getValue b = true → t.zoneBitmap.getValue b = true
  recorded : ∀ b, s.zoneBitmap.getValue b = false → t.zoneBitmap.getValue b = true →
    (∃ k, zoneOf t.disk y k = s.sb.sDataStartLba + b) ∨ y.iZones 12 = s.sb.sDataStartLba + b

/-- There is a free slot in an allocated zone, zone `f` the first; only direct addresses are
missing before it; and the free zones that will be taken for these hold no old entry. -/
structure AddFits (s : State) (x : Inode) (f : Nat) (bits : List Nat) : Prop where
  lt : f < 140
  alloc : zoneOf s.disk x f ≠ 0
  free : freeSlot (sectorAt s.disk (zoneOf s.disk x f)) ≠ none
  full : ∀ k, k < f → zoneOf s.disk x k ≠ 0 →
    freeSlot (sectorAt s.disk (zoneOf s.disk x k)) = none
  direct : ∀ k, k < f → zoneOf s.disk x k = 0 → k < 12
  taken : s.zoneBitmap.firstClear (missing (zoneOf s.disk x) 0 f) = some bits
  blank : ∀ b, b ∈ bits → ∀ i, i < perSector →
    isFree (entryAt (sectorAt s.disk (s.sb.sDataStartLba + b)) i) = true

theorem FlushOk.of_dir (h : DirOk s p x) (hm : ZoneMapOk s) (hu : ZonesUsed s x) :
    FlushOk s p x (zoneOf s.disk x) where
  layout := h.layout
  map := hm
  inode := h.inode
  data k hk := h.zone k (by by_contra hlt; exact hk (zoneOf_zero (by omega))) hk
  used := hu.zone
  direct k hk hz := by
    rw [← @zoneOf_direct s.disk _ _ hk] at hz ⊢
    exact ⟨(h.zone k (by omega) hz).1, hu.zone k hz⟩

theorem wp_flushDirEntry {Q : Bool → State → Prop} {d : Nat} {dir : Dir} (h : DirOk s p x)
    (hd : s.dirs d = some dir) (hp : dir.inode = some p) :
    wp E (flushDirEntry d e) Q s ↔ wp E (flushZones p e (zoneOf s.disk x) 140 0) Q s := by
  have ht : x.iZones 12 ≤ maxLba := by
    by_cases hz : x.iZones 12 = 0
    · omega
    · exact (h.table hz).2.1
  simp only [flushDirEntry, dirInode, dirAt, wp_bind, wp_get, wp_need, hd, hp, Option.some.injEq,
    forall_eq', reduceCtorEq, false_implies, and_true, wp_inodeAt, h.inode, wp_readTable ht]
  rfl

theorem freeSlot_some {buf : Store} {slot : Nat} (h : freeSlot buf = some slot) :
    slot < perSector ∧ isFree (entryAt buf slot) = true := by
  unfold freeSlot at h
  rw [List.find?_range_eq_some] at h
  exact ⟨List.mem_range.mp h.2.1, h.1⟩

namespace AddRun

variable {f slot k : Nat} {bits : List Nat}

/-- The indirect table is not written. -/
theorem table (hd : DirOk s p x) (h : AddRun s t p x y e (zoneOf s.disk x) 0 f slot bits)
    (hf : f < 140) : x.iZones 12 ≠ 0 →
      sectorAt t.disk (x.iZones 12) = sectorAt s.disk (x.iZones 12) := fun hz =>
  h.sector _ (hd.table hz).1 (hd.table_ne f hf h.alloc).symm

/-- Only missing direct addresses before `f` change. -/
theorem zone (hd : DirOk s p x) (h : AddRun s t p x y e (zoneOf s.disk x) 0 f slot bits)
    (hf : f < 140) (hk : zoneOf s.disk x k ≠ 0 ∨ f ≤ k ∨ 12 ≤ k) :
    zoneOf t.disk y k = zoneOf s.disk x k := by
  have ht : tableOf t.disk y = tableOf s.disk x :=
    tableOf_congr (h.keep 12 (by omega)) (h.table hd hf)
  unfold zoneOf zoneArray
  rw [ht, h.keep k (by omega)]

/-- The slots of the old zones, but for the one written. -/
theorem slot_eq (hd : DirOk s p x) (h : AddRun s t p x y e (zoneOf s.disk x) 0 f slot bits)
    (hf : f < 140) {i : Nat} (hz : zoneOf s.disk x k ≠ 0) (hi : i < perSector)
    (hne : (k, i) ≠ (f, slot)) : dirSlot t.disk y k i = dirSlot s.disk x k i := by
  have hzone := h.zone hd hf (k := k) (.inl hz)
  have hk140 : k < 140 := by
    by_contra hlt
    exact hz (zoneOf_zero (by omega))
  by_cases hkf : k = f
  · subst k
    have hslot : i ≠ slot := fun hi => hne (by rw [hi])
    unfold dirSlot
    rw [hzone]
    refine (entryAt_congr fun j hj => h.slotSector _ ?_).trans (entryAt_patch_ne hslot)
    simp only [perSector] at hi
    omega
  · refine dirSlot_congr i hzone (h.sector _ (hd.zone k hk140 hz).1 ?_)
    exact fun heq => hkf (hd.inj k f hk140 hf hz heq)

/-- The entries outside the zones that were taken, but for the one written. -/
theorem others (hd : DirOk s p x) (h : AddRun s t p x y e (zoneOf s.disk x) 0 f slot bits)
    (hf : f < 140) {i : Nat} (hk : zoneOf s.disk x k ≠ 0 ∨ f ≤ k ∨ 12 ≤ k)
    (hne : (k, i) ≠ (f, slot)) : liveAt t.disk y k i = liveAt s.disk x k i := by
  have hzone := h.zone hd hf hk
  by_cases hz : zoneOf s.disk x k = 0
  · rw [liveAt_unallocated hz, liveAt_unallocated (by rw [hzone, hz])]
  by_cases hi : i < perSector
  · exact liveAt_congr hzone (h.slot_eq hd hf hz hi hne)
  · unfold liveAt
    rw [if_neg (by tauto), if_neg (by tauto)]

/-- The slot that was written. -/
theorem written (hd : DirOk s p x) (h : AddRun s t p x y e (zoneOf s.disk x) 0 f slot bits)
    (hf : f < 140) (he : EntryOk e) (hlive : isFree e = false) :
    liveAt s.disk x f slot = none ∧ liveAt t.disk y f slot = some e := by
  obtain ⟨hs, hfree⟩ := freeSlot_some h.free
  have hzone := h.zone hd hf (.inl h.alloc)
  refine ⟨if_neg ?_, liveAt_eq_some.mpr ⟨hf, hs, by rw [hzone]; exact h.alloc, hlive, ?_⟩⟩
  · rintro ⟨-, -, -, hnot⟩
    rw [dirSlot, hfree] at hnot
    cases hnot
  · unfold dirSlot
    rw [hzone, ← @entryAt_putEntry (sectorAt s.disk (zoneOf s.disk x f)) slot _ he]
    exact entryAt_congr fun j hj => h.slotSector _ (by simp only [perSector] at hs; omega)

/-- The zones that were taken keep what they held. -/
theorem stale (hu : ZonesUsed s x) (h : AddRun s t p x y e (zoneOf s.disk x) 0 f slot bits)
    {b : Nat} (hb : b ∈ bits) :
    sectorAt t.disk (s.sb.sDataStartLba + b) = sectorAt s.disk (s.sb.sDataStartLba + b) := by
  refine h.sector _ (by omega) fun heq => ?_
  have hset := hu.zone f h.alloc
  rw [← heq, Nat.add_sub_cancel_left, (h.clear b hb).2] at hset
  cases hset

/-- A missing direct zone before `f` has become one of the zones taken. -/
theorem zone_taken (h : AddRun s t p x y e (zoneOf s.disk x) 0 f slot bits)
    (hz : zoneOf s.disk x k = 0) (hkf : k < f) (h12 : k < 12) :
    ∃ b, b ∈ bits ∧ zoneOf t.disk y k = s.sb.sDataStartLba + b := by
  obtain ⟨b, hb, hy⟩ := h.direct k (by omega) hkf hz h12
  exact ⟨b, hb, by rw [zoneOf_direct h12, hy]⟩

/-- A scan that met no missing indirect address and no old entries has added just the entry. -/
theorem added (hd : DirOk s p x) (hu : ZonesUsed s x)
    (h : AddRun s t p x y e (zoneOf s.disk x) 0 f slot bits) (hfits : AddFits s x f bits)
    (he : EntryOk e) (hlive : isFree e = false) : EntryAdded s t x y e where
  slot := by
    obtain ⟨hnone, hsome⟩ := h.written hd hfits.lt he hlive
    refine ⟨f, slot, hnone, hsome, fun k i hne => ?_⟩
    by_cases hk : zoneOf s.disk x k ≠ 0 ∨ f ≤ k ∨ 12 ≤ k
    · exact h.others hd hfits.lt hk hne
    -- a zone that was taken: whatever it holds is not an entry
    push Not at hk
    obtain ⟨b, hb, hzone⟩ := h.zone_taken hk.1 hk.2.1 hk.2.2
    rw [liveAt_unallocated hk.1]
    refine if_neg ?_
    rintro ⟨-, hi, -, hnot⟩
    rw [dirSlot, hzone, h.stale hu hb, hfits.blank b hb i hi] at hnot
    cases hnot
  size := h.size
  kept b hb := (h.bit b).mpr (.inl hb)
  recorded b hclear hset := by
    rcases (h.bit b).mp hset with hb | hb
    · rw [hclear] at hb
      cases hb
    · obtain ⟨k, -, hkf, hz, hy⟩ := h.back b hb
      have h12 := hfits.direct k hkf hz
      exact .inl ⟨k, by rw [zoneOf_direct h12, hy h12]⟩

/-- A zone taken for an indirect address is recorded nowhere. -/
theorem direct_of_recorded (hd : DirOk s p x) (hu : ZonesUsed s x)
    (h : AddRun s t p x y e (zoneOf s.disk x) 0 f slot bits) (hf : f < 140)
    (hadd : EntryAdded s t x y e) (hk : k < f) (hz : zoneOf s.disk x k = 0) : k < 12 := by
  by_contra h12
  obtain ⟨b, hb, hleak⟩ := h.leak k (by omega) hk hz (by omega)
  have hclear := (h.clear b hb).2
  have hunused : ∀ z, s.zoneBitmap.getValue (z - s.sb.sDataStartLba) = true →
      z ≠ s.sb.sDataStartLba + b := by
    rintro z hz rfl
    rw [Nat.add_sub_cancel_left, hclear] at hz
    cases hz
  have hpos := hd.layout.data_gt
  rcases hadd.recorded b hclear ((h.bit b).mpr (.inr hb)) with ⟨j, hj⟩ | hj
  · by_cases hj12 : j < 12
    · exact hleak j hj12 (by rwa [← @zoneOf_direct t.disk _ _ hj12])
    · rw [h.zone hd hf (.inr (.inr (by omega)))] at hj
      exact hunused _ (hu.zone j (by omega)) hj
  · rw [h.keep 12 (by omega)] at hj
    exact hunused _ (hu.table (by omega)) hj

/-- When the entry is all that was added, the scan met what `AddFits` asks for. -/
theorem fits (hd : DirOk s p x) (hu : ZonesUsed s x)
    (h : AddRun s t p x y e (zoneOf s.disk x) 0 f slot bits) (hf : f < 140) (he : EntryOk e)
    (hlive : isFree e = false) (hadd : EntryAdded s t x y e) : AddFits s x f bits where
  lt := hf
  alloc := h.alloc
  free := by rw [h.free]; simp
  full k hk hz := h.full k (by omega) hk hz
  direct k hk hz := h.direct_of_recorded hd hu hf hadd hk hz
  taken := h.taken
  blank b hb i hi := by
    obtain ⟨k, -, hkf, hz, hy⟩ := h.back b hb
    have h12 := h.direct_of_recorded hd hu hf hadd hkf hz
    have hzone : zoneOf t.disk y k = s.sb.sDataStartLba + b := by rw [zoneOf_direct h12, hy h12]
    obtain ⟨hnone, hsome⟩ := h.written hd hf he hlive
    obtain ⟨k₀, i₀, -, -, hothers⟩ := hadd.slot
    have hat : (f, slot) = (k₀, i₀) := by
      by_contra hne
      have := hothers f slot hne
      rw [hnone, hsome] at this
      cases this
    have hold := hothers k i (by rw [← hat]; simp only [ne_eq, Prod.mk.injEq]; omega)
    rw [liveAt_unallocated hz] at hold
    by_contra hnot
    have hpos := hd.layout.data_gt
    rw [Bool.not_eq_true, ← h.stale hu hb, ← hzone] at hnot
    rw [liveAt_eq_some.mpr ⟨by omega, hi, by omega, hnot, rfl⟩] at hold
    cases hold

end AddRun

/-- What the call needs says which zones it takes. -/
theorem AddFits.eq_run {f f' slot : Nat} {bits bits' : List Nat} (h : AddFits s x f bits)
    (hrun : AddRun s t p x y e (zoneOf s.disk x) 0 f' slot bits') : f' = f ∧ bits' = bits := by
  have hf : f' = f := by
    rcases Nat.lt_trichotomy f' f with hlt | heq | hlt
    · have := h.full f' hlt hrun.alloc
      rw [hrun.free] at this
      cases this
    · exact heq
    · exact absurd (hrun.full f (by omega) hlt h.alloc) h.free
  subst hf
  have := hrun.taken
  rw [h.taken] at this
  cases this
  exact ⟨rfl, rfl⟩

theorem fits_of_added {d : Nat} {dir : Dir} (h : DirOk s p x) (hm : ZoneMapOk s)
    (hu : ZonesUsed s x) (hd : s.dirs d = some dir) (hp : dir.inode = some p) (he : EntryOk e)
    (hlive : isFree e = false) (hrun : flushDirEntry d e s = .ok (true, t))
    (hy : t.inodes p = some y) (hadd : EntryAdded s t x y e) : ∃ f bits, AddFits s x f bits := by
  have hspec := (wp_flushDirEntry h hd hp).mpr
    (@wp_flushZones _ e _ 140 _ _ _ (FlushOk.of_dir h hm hu))
  obtain ⟨y', f, slot, bits, hf, hrun⟩ := wp_ok hspec hrun rfl
  have := hrun.inode
  rw [hy] at this
  cases this
  exact ⟨f, bits, hrun.fits h hu (by omega) he hlive hadd⟩

/-- `flush_dir_entry` adds the entry, and nothing else, exactly when it fits. -/
theorem flushDirEntry_exact {d : Nat} {dir : Dir} (h : DirOk s p x) (hm : ZoneMapOk s)
    (hu : ZonesUsed s x) (hd : s.dirs d = some dir) (hp : dir.inode = some p) (he : EntryOk e)
    (hlive : isFree e = false) :
    (∃ t y, flushDirEntry d e s = .ok (true, t) ∧ t.inodes p = some y ∧ EntryAdded s t x y e) ↔
      ∃ f bits, AddFits s x f bits := by
  constructor
  · rintro ⟨t, y, hrun, hy, hadd⟩
    exact fits_of_added h hm hu hd hp he hlive hrun hy hadd
  · rintro ⟨f, bits, hfits⟩
    have hok := FlushOk.of_dir h hm hu
    have hreturns := (wp_flushDirEntry h hd hp).mpr (@flushZones_returns _ e _ 140 _ _ _ _ _ hok
      (Nat.zero_le f) (by have := hfits.lt; omega) hfits.alloc hfits.free hfits.taken)
    obtain ⟨r, t, hrun, rfl⟩ := ok_of_wp hreturns
    have hspec := (wp_flushDirEntry h hd hp).mpr (@wp_flushZones _ e _ 140 _ _ _ hok)
    obtain ⟨y, f', slot, bits', -, hadd⟩ := wp_ok hspec hrun rfl
    obtain ⟨rfl, rfl⟩ := hfits.eq_run hadd
    exact ⟨t, y, hrun, hadd.inode, hadd.added h hu hfits he hlive⟩

/-! ## A directory that outgrows its first sector -/

theorem oneZone_map (entries : Store) : ZoneMapOk (oneZone entries) where
  len := show 512 = 512 * (formatBlock 0 4000).sZmapSz by decide +kernel
  pad b hb _ := by
    have hs : (formatBlock 0 4000).sZmapSz = 1 := by decide +kernel
    have hd : (formatBlock 0 4000).sDataStartLba ≤ 4096 := by decide +kernel
    have hb' : b < 4096 * (formatBlock 0 4000).sZmapSz := hb
    show (formatBlock 0 4000).sDataStartLba + b ≤ maxLba
    unfold maxLba
    omega

theorem oneZone_used (entries : Store) : ZonesUsed (oneZone entries) zoneDir where
  zone k hk := by
    rw [zoneOf_zoneDir] at hk ⊢
    split at hk
    · rw [if_pos ‹_›]
      show (oneZone fun _ => 0).zoneBitmap.getValue (900 - (formatBlock 0 4000).sDataStartLba) = true
      decide +kernel
    · exact absurd rfl hk
  table h := absurd rfl h

/-- Entries `a`, `b`, `c`, ... of inodes 7, 8, 9, ... in every slot. -/
def letters : Store := fun o =>
  (entryOf [BitVec.ofNat 8 (97 + o / 24)] (7 + o / 24) .regular).toBytes (o % 24)

/-- The only zone of the directory is full and two zones are free, but the entry is not added. -/
theorem flushDirEntry_full_zone :
    DirOk (oneZone letters) 1 zoneDir ∧ (oneZone letters).zoneBitmap.firstClear 2 ≠ none ∧
      (∃ k i, k < 140 ∧ i < perSector ∧ liveAt (oneZone letters).disk zoneDir k i = none) ∧
      ¬ ∃ t y, flushDirEntry 2 (entryOf [122#8] 40 .regular) (oneZone letters) = .ok (true, t) ∧
        t.inodes 1 = some y ∧
          EntryAdded (oneZone letters) t zoneDir y (entryOf [122#8] 40 .regular) := by
  refine ⟨oneZone_ok letters, by decide +kernel,
    ⟨1, 0, by decide, by decide, liveAt_unallocated (by rw [zoneOf_zoneDir]; rfl)⟩, ?_⟩
  rintro ⟨t, y, hrun, hy, hadd⟩
  have he : EntryOk (entryOf [122#8] 40 .regular) := entryOf_ok (by decide) (by decide)
  obtain ⟨f, bits, hfits⟩ := fits_of_added (oneZone_ok letters) (oneZone_map letters)
    (oneZone_used letters) rfl rfl he (by decide) hrun hy hadd
  have hf := hfits.alloc
  have hfree := hfits.free
  rw [zoneOf_zoneDir] at hf hfree
  split at hf
  · rw [if_pos ‹_›] at hfree
    exact hfree (by decide +kernel)
  · exact hf rfl

theorem flushDirEntry_exact_empty_zone :
    (∃ t y, flushDirEntry 2 (entryOf [122#8] 40 .regular) (oneZone fun _ => 0) = .ok (true, t) ∧
      t.inodes 1 = some y ∧
        EntryAdded (oneZone fun _ => 0) t zoneDir y (entryOf [122#8] 40 .regular)) ↔
      ∃ f bits, AddFits (oneZone fun _ => 0) zoneDir f bits :=
  flushDirEntry_exact (oneZone_ok _) (oneZone_map _) (oneZone_used _) rfl rfl
    (entryOf_ok (by decide) (by decide)) (by decide)

end Frog.Fs
