import Frog.Lib.Runs
import Frog.Fs.DirAdd
import Frog.Fs.DirRemove

/-!
# Directories without holes

Numbered through all zones, the slots of a directory that only grew are live up to some number
and blank from there on. `flush_dir_entry` keeps this as long as the next slot lies in an
allocated zone. `delete_dir_entry` clears a slot in the zone of its match and one in every later
zone, so it keeps this when nothing live stays behind a cleared slot.
-/

namespace Frog.Fs

set_option autoImplicit false
open Bytes Prog

variable {E : Stop → Prop} {s t : State} {p inodeNr : Nat} {x y : Inode} {e : DirEntry}

/-! ## What both operations leave alone -/

/-- The directory at `p` has the same zones as before, and is reached the same way. -/
structure DirKept (s t : State) (p : Nat) (x y : Inode) : Prop where
  inode : t.inodes p = some y
  sb : t.sb = s.sb
  len : t.zoneBitmap.mapBytesLength = s.zoneBitmap.mapBytesLength
  dirs : t.dirs = s.dirs
  env : t.env = s.env
  proc : t.isProcess = s.isProcess
  num : y.iNum = x.iNum
  zones : y.iZones = x.iZones
  table : x.iZones 12 ≠ 0 → sectorAt t.disk (x.iZones 12) = sectorAt s.disk (x.iZones 12)

namespace DirKept

theorem refl (h : s.inodes p = some x) : DirKept s s p x x :=
  ⟨h, rfl, rfl, rfl, rfl, rfl, rfl, rfl, fun _ => rfl⟩

theorem trans {u : State} {z : Inode} (h : DirKept s t p x y) (h' : DirKept t u p y z) :
    DirKept s u p x z where
  inode := h'.inode
  sb := h'.sb.trans h.sb
  len := h'.len.trans h.len
  dirs := h'.dirs.trans h.dirs
  env := h'.env.trans h.env
  proc := h'.proc.trans h.proc
  num := h'.num.trans h.num
  zones := h'.zones.trans h.zones
  table hz := by
    have ht := h.table hz
    rw [← h.zones] at hz ht ⊢
    exact (h'.table hz).trans ht

theorem zone (h : DirKept s t p x y) (k : Nat) : zoneOf t.disk y k = zoneOf s.disk x k :=
  zoneOf_congr (fun k _ => by rw [h.zones]) h.table k

theorem dirOk (h : DirKept s t p x y) (hd : DirOk s p x) : DirOk t p y where
  layout := h.sb ▸ hd.layout
  mapLen := by rw [h.len, h.sb, hd.mapLen]
  inode := h.inode
  num := by
    rw [h.num, h.sb]
    exact hd.num
  zone k hk hz := by
    rw [h.zone] at hz ⊢
    rw [h.sb]
    exact hd.zone k hk hz
  table hz := by
    rw [h.zones] at hz ⊢
    rw [h.sb]
    exact hd.table hz
  inj j k hj hk hz heq := by
    rw [h.zone] at hz heq
    rw [h.zone] at heq
    exact hd.inj j k hj hk hz heq
  table_ne k hk hz := by
    rw [h.zone] at hz ⊢
    rw [h.zones]
    exact hd.table_ne k hk hz

end DirKept

/-! ## The slots in order -/

abbrev dirSlots : Nat := 140 * perSector

/-- Slot `q`, counted through all zones. -/
def slotAt (disk : Store) (x : Inode) (q : Nat) : DirEntry :=
  dirSlot disk x (q / perSector) (q % perSector)

/-- A slot as a deletion leaves it. -/
structure Blank (e : DirEntry) : Prop where
  name : e.filename 0 = 0
  no : e.iNo = 0
  type : e.fType = 0

theorem Blank.isFree (h : Blank e) : isFree e = true := by
  simp [Fs.isFree, h.name, h.type]

/-- The first `n` slots hold entries of the kind `good`, and every later slot of an allocated zone
is blank. -/
structure Packed (good : DirEntry → Prop) (disk : Store) (x : Inode) (n : Nat) : Prop where
  le : n ≤ dirSlots
  zone : ∀ q, q < n → zoneOf disk x (q / perSector) ≠ 0
  live : ∀ q, q < n → isFree (slotAt disk x q) = false
  good : ∀ q, q < n → good (slotAt disk x q)
  rest : ∀ q, n ≤ q → q < dirSlots → zoneOf disk x (q / perSector) ≠ 0 → Blank (slotAt disk x q)

namespace Packed

variable {good : DirEntry → Prop} {disk : Store} {n : Nat}

/-- The zones before an entry are allocated. -/
theorem zone_le (h : Packed good disk x n) {q k : Nat} (hq : q < n) (hk : k ≤ q / perSector) :
    zoneOf disk x k ≠ 0 := by
  have := h.zone (perSector * k) (by unfold perSector at *; omega)
  rwa [Nat.mul_div_cancel_left _ (by norm_num)] at this

theorem free_iff (h : Packed good disk x n) {q : Nat} (hq : q < dirSlots)
    (hz : zoneOf disk x (q / perSector) ≠ 0) : isFree (slotAt disk x q) = true ↔ n ≤ q := by
  constructor
  · intro hfree
    by_contra hlt
    rw [h.live q (by omega)] at hfree
    cases hfree
  · intro hle
    exact (h.rest q hle hq hz).isFree

theorem slot_pos {k i : Nat} (hi : i < perSector) :
    slotAt disk x (perSector * k + i) = dirSlot disk x k i := by
  unfold slotAt
  rw [Nat.mul_add_div (by norm_num), Nat.div_eq_of_lt hi, Nat.add_zero, Nat.mul_add_mod,
    Nat.mod_eq_of_lt hi]

theorem liveAt_slot (h : Packed good disk x n) {q : Nat} (hq : q < n) :
    liveAt disk x (q / perSector) (q % perSector) = some (slotAt disk x q) := by
  have hle := h.le
  exact liveAt_eq_some.mpr ⟨by unfold dirSlots perSector at *; omega, Nat.mod_lt _ (by norm_num),
    h.zone q hq, h.live q hq, rfl⟩

theorem of_live (h : Packed good disk x n) {k i : Nat} {e : DirEntry}
    (hlive : liveAt disk x k i = some e) : perSector * k + i < n ∧ i < perSector ∧
      slotAt disk x (perSector * k + i) = e := by
  obtain ⟨hk, hi, hz, hfree, rfl⟩ := liveAt_eq_some.mp hlive
  refine ⟨?_, hi, slot_pos hi⟩
  by_contra hle
  have hq : perSector * k + i < dirSlots := by unfold dirSlots perSector at *; omega
  have hdiv : (perSector * k + i) / perSector = k := by unfold perSector at *; omega
  have := (h.rest _ (by omega) hq (by rwa [hdiv])).isFree
  rw [slot_pos hi, hfree] at this
  cases this

/-- Only the zones and their sectors matter. -/
theorem congr {disk' : Store} (h : Packed good disk x n)
    (hzone : ∀ k, zoneOf disk' y k = zoneOf disk x k)
    (hsector : ∀ k, zoneOf disk x k ≠ 0 →
      sectorAt disk' (zoneOf disk x k) = sectorAt disk (zoneOf disk x k)) :
    Packed good disk' y n := by
  have hslot : ∀ q, zoneOf disk x (q / perSector) ≠ 0 → slotAt disk' y q = slotAt disk x q :=
    fun q hz => dirSlot_congr _ (hzone _) (hsector _ hz)
  refine ⟨h.le, fun q hq => ?_, fun q hq => ?_, fun q hq => ?_, fun q h1 h2 h3 => ?_⟩
  · rw [hzone]
    exact h.zone q hq
  · rw [hslot q (h.zone q hq)]
    exact h.live q hq
  · rw [hslot q (h.zone q hq)]
    exact h.good q hq
  · rw [hzone] at h3
    rw [hslot q h3]
    exact h.rest q h1 h2 h3

/-- Zones before the first blank slot are full. -/
theorem freeSlot_full (h : Packed good disk x n) {k : Nat} (hk : perSector * k + perSector ≤ n) :
    freeSlot (sectorAt disk (zoneOf disk x k)) = none := by
  unfold freeSlot
  rw [List.find?_range_eq_none]
  intro i hi
  have hlive := h.live (perSector * k + i) (by omega)
  rw [slot_pos hi] at hlive
  rw [show entryAt (sectorAt disk (zoneOf disk x k)) i = dirSlot disk x k i from rfl, hlive]
  rfl

theorem freeSlot_first (h : Packed good disk x n) (hn : n < dirSlots)
    (hz : zoneOf disk x (n / perSector) ≠ 0) :
    freeSlot (sectorAt disk (zoneOf disk x (n / perSector))) = some (n % perSector) := by
  unfold freeSlot
  rw [List.find?_range_eq_some]
  refine ⟨(h.free_iff hn hz).mpr (Nat.le_refl n), List.mem_range.mpr (Nat.mod_lt _ (by norm_num)),
    fun i hi => ?_⟩
  have hlt : perSector * (n / perSector) + i < n := by unfold perSector at *; omega
  have hlive := h.live _ hlt
  rw [slot_pos (by unfold perSector at *; omega)] at hlive
  rw [show entryAt (sectorAt disk (zoneOf disk x (n / perSector))) i =
    dirSlot disk x (n / perSector) i from rfl, hlive]
  rfl

end Packed

/-! ## Adding at the end -/

section Add

variable {good : DirEntry → Prop} {n : Nat}

/-- The entry goes to the first blank slot. -/
theorem wp_flushDirEntry_packed {Q : Bool → State → Prop} {d : Nat} {dir : Dir} (hd : DirOk s p x)
    (hdir : s.dirs d = some dir) (hp : dir.inode = some p) (h : Packed good s.disk x n)
    (hn : n < dirSlots) (hz : zoneOf s.disk x (n / perSector) ≠ 0) :
    wp E (flushDirEntry d e) Q s ↔
      Q true (putAt s p x e (zoneOf s.disk x (n / perSector)) (n % perSector)) := by
  have hk : n / perSector < 140 := by unfold dirSlots perSector at *; omega
  have hfull : ∀ k, 0 ≤ k → k < 0 + n / perSector → zoneOf s.disk x k ≤ maxLba ∧
      zoneOf s.disk x k ≠ 0 ∧ freeSlot (sectorAt s.disk (zoneOf s.disk x k)) = none := by
    intro k _ hlt
    have hpos : perSector * k + perSector ≤ n := by unfold perSector at *; omega
    refine ⟨hd.zone_le (by omega), ?_, h.freeSlot_full hpos⟩
    exact h.zone_le (q := perSector * k) (by unfold perSector at *; omega)
      (by unfold perSector; omega)
  have hsplit : 140 = n / perSector + (139 - n / perSector + 1) := by omega
  rw [wp_flushDirEntry hd hdir hp,
    congrArg (fun left => wp E (flushZones p e (zoneOf s.disk x) left 0) Q s) hsplit,
    wp_flushZones_full hd.inode hfull, Nat.zero_add,
    wp_flushZones_alloc hd.inode (hd.zone_le hk) hz, h.freeSlot_first hn hz]

theorem addRun_packed (h : Packed good s.disk x n) (hn : n < dirSlots)
    (hz : zoneOf s.disk x (n / perSector) ≠ 0) :
    AddRun s (putAt s p x e (zoneOf s.disk x (n / perSector)) (n % perSector)) p x
      (x.setSize (u32 (x.iSize + 24))) e (zoneOf s.disk x) 0 (n / perSector) (n % perSector) [] := by
  refine AddRun.skip_all (m := n / perSector) ?_ fun k _ hlt => ?_
  · rw [Nat.zero_add]
    exact .here hz (h.freeSlot_first hn hz)
  · refine ⟨h.zone_le (q := perSector * k) ?_ ?_, h.freeSlot_full ?_⟩ <;> unfold perSector at * <;> omega

theorem putAt_kept (hd : DirOk s p x) {k slot : Nat} (hk : k < 140) (hz : zoneOf s.disk x k ≠ 0) :
    DirKept s (putAt s p x e (zoneOf s.disk x k) slot) p x (x.setSize (u32 (x.iSize + 24))) where
  inode := Function.update_self ..
  sb := rfl
  len := rfl
  dirs := rfl
  env := rfl
  proc := rfl
  num := rfl
  zones := rfl
  table _ := sectorAt_other (hd.table_ne k hk hz).symm

/-- One more slot is live. -/
theorem putAt_packed (hd : DirOk s p x) (h : Packed good s.disk x n) (hn : n < dirSlots)
    (hz : zoneOf s.disk x (n / perSector) ≠ 0) (he : EntryOk e) (hlive : isFree e = false)
    (hgood : good e) :
    Packed good (putAt s p x e (zoneOf s.disk x (n / perSector)) (n % perSector)).disk
      (x.setSize (u32 (x.iSize + 24))) (n + 1) := by
  have hk : n / perSector < 140 := by unfold dirSlots perSector at *; omega
  have hrun := addRun_packed (s := s) (p := p) (e := e) h hn hz
  have hkept := @putAt_kept _ _ _ e hd _ (n % perSector) hk hz
  have hold : ∀ q, q ≠ n → zoneOf s.disk x (q / perSector) ≠ 0 → slotAt
      (putAt s p x e (zoneOf s.disk x (n / perSector)) (n % perSector)).disk
        (x.setSize (u32 (x.iSize + 24))) q = slotAt s.disk x q := by
    intro q hq hzq
    refine hrun.slot_eq hd hk hzq (Nat.mod_lt _ (by norm_num)) fun heq => hq ?_
    rw [Prod.mk.injEq] at heq
    rw [← Nat.div_add_mod q perSector, heq.1, heq.2, Nat.div_add_mod]
  have hnew : slotAt (putAt s p x e (zoneOf s.disk x (n / perSector)) (n % perSector)).disk
      (x.setSize (u32 (x.iSize + 24))) n = e :=
    (liveAt_eq_some.mp (hrun.written hd hk he hlive).2).2.2.2.2
  refine ⟨hn, fun q hq => ?_, fun q hq => ?_, fun q hq => ?_, fun q h1 h2 h3 => ?_⟩
  · rw [hkept.zone]
    by_cases hqn : q = n
    · rw [hqn]
      exact hz
    · exact h.zone q (by omega)
  · by_cases hqn : q = n
    · rw [hqn, hnew, hlive]
    · rw [hold q hqn (h.zone q (by omega))]
      exact h.live q (by omega)
  · by_cases hqn : q = n
    · rw [hqn, hnew]
      exact hgood
    · rw [hold q hqn (h.zone q (by omega))]
      exact h.good q (by omega)
  · rw [hkept.zone] at h3
    rw [hold q (by omega) h3]
    exact h.rest q (by omega) h2 h3

end Add

/-! ## What a deletion clears -/

/-- The slot the loop clears in the last of the first `n` zones: the latest match so far. -/
def foundAfter (hit : Nat → Option Nat) : Nat → Option Nat
  | 0 => none
  | n + 1 => (hit n).or (foundAfter hit n)

def eraseSlot (slot : Option Nat) (b : Store) : Store :=
  match slot with
  | none => b
  | some i => patch b (24 * i) 24 fun _ => 0

theorem eraseSlot_some (b : Store) (i : Nat) :
    eraseSlot (some i) b = patch b (24 * i) 24 fun _ => 0 := rfl

theorem entryAt_erase_self (b : Store) (i : Nat) : Blank (entryAt (eraseSlot (some i) b) i) := by
  rw [eraseSlot_some]
  obtain ⟨h1, h2, h3⟩ := entryAt_zero (b := patch b (24 * i) 24 fun _ => 0) (i := i)
    fun j hj => patch_in (by omega)
  exact ⟨h1, h2, h3⟩

theorem entryAt_erase_ne {b : Store} {o : Option Nat} {i : Nat} (h : o ≠ some i) :
    entryAt (eraseSlot o b) i = entryAt b i := by
  cases o with
  | none => rfl
  | some slot =>
    rw [eraseSlot_some]
    exact entryAt_patch_ne fun heq => h (by rw [heq])

theorem zoneLink_ne_zero {b : Store} :
    zoneLink b ≠ 0 ↔ ∃ i, i < perSector ∧ isDots (entryAt b i) = false := by
  unfold zoneLink
  rw [ne_eq, List.countP_eq_zero]
  simp

/-- A cleared slot is not named `.` or `..`. -/
theorem zoneLink_erase {b : Store} {o : Option Nat} (h : zoneLink b ≠ 0) :
    zoneLink (eraseSlot o b) ≠ 0 := by
  rw [zoneLink_ne_zero] at h ⊢
  obtain ⟨i, hi, hdots⟩ := h
  refine ⟨i, hi, ?_⟩
  by_cases ho : o = some i
  · subst ho
    simp [isDots, strEq, dot, dotDot, (entryAt_erase_self b i).name]
  · rw [entryAt_erase_ne ho, hdots]

/-- One turn in a sector that holds more than `.` and `..`. -/
theorem wp_deleteZones_clear {left i : Nat} {zones : Nat → Nat} {found : Option Nat}
    {Q : Unit → State → Prop} (hE : s.isProcess = true → E .fault) (hl : Layout s.sb)
    (hx : s.inodes p = some x) (hn : x.iNum < s.sb.sNinodes) (hz : zones i ≤ maxLba)
    (hlink : zoneLink (sectorAt s.disk (zones i)) ≠ 0)
    (hslot : ∀ slot, (lastMatch (sectorAt s.disk (zones i)) inodeNr).or found = some slot →
      slot < perSector ∧ wp E (deleteZones p inodeNr left (i + 1) zones (some slot)) Q
        (cleared s p x (zones i) slot))
    (hnone : (lastMatch (sectorAt s.disk (zones i)) inodeNr).or found = none →
      wp E (deleteZones p inodeNr left (i + 1) zones none) Q s) :
    wp E (deleteZones p inodeNr (left + 1) i zones found) Q s := by
  unfold sectorAt at hlink hslot hnone
  simp only [deleteZones, wp_bind, wp_ideRead_one hz, wp_get, wp_check]
  refine ⟨fun _ => ?_, fun h => hE (by simpa using fun h' => h (.inr h'))⟩
  cases hor : (lastMatch (sectors s.disk (zones i) 1) inodeNr).or found with
  | none => exact hnone hor
  | some slot =>
    obtain ⟨hlt, hnext⟩ := hslot slot hor
    have hshrink : ∀ d R, wp E (shrinkSize p) R (s.setDisk d) ↔
        R () (((s.setDisk d).putInode p (some (x.setSize (u32Sub x.iSize 24)))).setDisk
          (patch d (inodeAddr s.sb x.iNum) 100
            (x.setSize (u32Sub x.iSize 24)).forDisk.toBytes)) :=
      fun d R => wp_shrinkSize hl hx hn
    simp only [hlink, if_false, wp_bind, wp_ideWrite_one hz, wp_pure, patch_sector_slot hlt, hshrink]
    exact hnext

section Sweep

variable {z slot : Nat}

theorem inodeAddr_ge (hl : Layout s.sb) (nr : Nat) : 512 ≤ inodeAddr s.sb nr := by
  have h1 := hl.imap
  have h2 := hl.zmap
  have h3 := hl.itable
  unfold inodeAddr
  omega

theorem cleared_self (hd : DirOk s p x) (hs : slot < perSector)
    (hz : z = 0 ∨ s.sb.sDataStartLba ≤ z) :
    sectorAt (cleared s p x z slot).disk z = eraseSlot (some slot) (sectorAt s.disk z) := by
  have haddr := hd.inodeAddr_lt
  have hge := inodeAddr_ge hd.layout x.iNum
  unfold perSector at hs
  funext i
  by_cases hi : i < 512
  · have hout : 512 * z + i < inodeAddr s.sb x.iNum ∨ inodeAddr s.sb x.iNum + 100 ≤ 512 * z + i := by
      rcases hz with rfl | hz <;> omega
    rw [sectorAt_apply hi, cleared_disk, patch_out hout, eraseSlot_some]
    unfold patch
    by_cases h : 24 * slot ≤ i ∧ i < 24 * slot + 24
    · rw [if_pos (by omega), if_pos h]
    · rw [if_neg (by omega), if_neg h, sectorAt_apply hi]
  · rw [eraseSlot_some, patch_out (by omega)]
    exact (if_neg (by omega)).trans (if_neg (by omega)).symm

/-- Sector 0 is cleared only when it is the one read. -/
theorem cleared_low (hd : DirOk s p x) (hs : slot < perSector) (hz : z ≠ 0) :
    sectorAt (cleared s p x z slot).disk 0 = sectorAt s.disk 0 := by
  have hge := inodeAddr_ge hd.layout x.iNum
  unfold perSector at hs
  rw [cleared_disk, sectorAt_patch_out (by omega), sectorAt_patch_out (by omega)]

theorem cleared_kept (hd : DirOk s p x) (hs : slot < perSector)
    (hz : x.iZones 12 ≠ 0 → x.iZones 12 ≠ z) :
    DirKept s (cleared s p x z slot) p x (x.setSize (u32Sub x.iSize 24)) where
  inode := Function.update_self ..
  sb := rfl
  len := rfl
  dirs := rfl
  env := rfl
  proc := rfl
  num := rfl
  zones := rfl
  table h0 := cleared_sector hd hs (hd.table h0).1 (hz h0)

/-- After the first `i` turns: every zone is as before but for one slot, which in the zones up to
the first missing one is the latest match. -/
structure Swept (s₀ s : State) (p : Nat) (x : Inode) (inodeNr i : Nat) (found : Option Nat) :
    Prop where
  kept : ∃ y, DirKept s₀ s p x y
  slots : ∀ k, zoneOf s₀.disk x k ≠ 0 → ∃ o, sectorAt s.disk (zoneOf s₀.disk x k) =
    eraseSlot o (sectorAt s₀.disk (zoneOf s₀.disk x k)) ∧ (i ≤ k → o = none) ∧
      (k < i → (∀ j, j ≤ k → scanZone s₀.disk x j ≠ 0) →
        o = foundAfter (matchAt s₀.disk x inodeNr) (k + 1))
  latest : (∀ j, j < i → scanZone s₀.disk x j ≠ 0) → found = foundAfter (matchAt s₀.disk x inodeNr) i
  lt : ∀ slot, found = some slot → slot < perSector
  zero : (∃ k, k < 140 ∧ scanZone s₀.disk x k = 0) → zoneLink (sectorAt s.disk 0) ≠ 0

/-- No sector that the loop reads holds only `.` and `..`. -/
def NoDotsSector (disk : Store) (x : Inode) : Prop :=
  ∀ k, k < 140 → zoneLink (sectorAt disk (scanZone disk x k)) ≠ 0

theorem Swept.start (hd : DirOk s p x) (hlinks : NoDotsSector s.disk x) :
    Swept s s p x inodeNr 0 none where
  kept := ⟨x, .refl hd.inode⟩
  slots k _ := ⟨none, rfl, fun _ => rfl, fun h => by omega⟩
  latest _ := rfl
  lt slot h := by cases h
  zero := by
    rintro ⟨k, hk, h0⟩
    have := hlinks k hk
    rwa [h0] at this

theorem scanZone_ne {disk : Store} {k : Nat} (h : scanZone disk x k ≠ 0) :
    scanZone disk x k = zoneOf disk x k := by
  rcases scanZone_cases disk x k with h' | ⟨-, h'⟩
  · exact h'
  · exact absurd h' h

/-- The sector of a turn is as it was before the loop. -/
theorem Swept.fresh {i : Nat} {found : Option Nat} (h : Swept s t p x inodeNr i found)
    (hz : scanZone s.disk x i ≠ 0) :
    sectorAt t.disk (scanZone s.disk x i) = sectorAt s.disk (scanZone s.disk x i) := by
  have heq := scanZone_ne hz
  rw [heq] at hz ⊢
  obtain ⟨o, ho, hnone, -⟩ := h.slots i hz
  rw [ho, hnone (Nat.le_refl i)]
  rfl

/-- The next value of `found_entry`. -/
theorem Swept.next_found {i : Nat} {found : Option Nat} (h : Swept s t p x inodeNr i found)
    (hvis : ∀ j, j ≤ i → scanZone s.disk x j ≠ 0) :
    (lastMatch (sectorAt t.disk (scanZone s.disk x i)) inodeNr).or found =
      foundAfter (matchAt s.disk x inodeNr) (i + 1) := by
  rw [h.fresh (hvis i (Nat.le_refl i)), h.latest fun j hj => hvis j (by omega)]
  rfl

theorem Swept.next_none {i : Nat} {found : Option Nat} (h : Swept s t p x inodeNr i found)
    (hnone : (lastMatch (sectorAt t.disk (scanZone s.disk x i)) inodeNr).or found = none) :
    Swept s t p x inodeNr (i + 1) none where
  kept := h.kept
  slots k hk := by
    obtain ⟨o, ho, h1, h2⟩ := h.slots k hk
    refine ⟨o, ho, fun hle => h1 (by omega), fun hlt hvis => ?_⟩
    by_cases hki : k = i
    · subst k
      rw [h1 (Nat.le_refl i), ← h.next_found hvis, hnone]
    · exact h2 (by omega) hvis
  latest hvis := by rw [← h.next_found fun j hj => hvis j (by omega), hnone]
  lt slot hs := by cases hs
  zero := h.zero

/-- The turn has cleared slot `slot` of the sector it read. -/
theorem Swept.next_some {i : Nat} {found : Option Nat} (hd : DirOk s p x)
    (h : Swept s t p x inodeNr i found) (hi : i < 140) (hkept : DirKept s t p x y)
    (hs : slot < perSector)
    (hsome : (lastMatch (sectorAt t.disk (scanZone s.disk x i)) inodeNr).or found = some slot) :
    Swept s (cleared t p y (scanZone s.disk x i) slot) p x inodeNr (i + 1) (some slot) where
  kept := by
    refine ⟨_, hkept.trans (cleared_kept (hkept.dirOk hd) hs fun h0 heq => ?_)⟩
    rw [hkept.zones] at h0 heq
    have hzone := scanZone_ne (heq ▸ h0 : scanZone s.disk x i ≠ 0)
    rw [heq, hzone] at h0
    exact hd.table_ne i hi h0 (by rw [heq, hzone])
  slots k hk := by
    have hk140 : k < 140 := by
      by_contra hlt
      exact hk (zoneOf_zero (by omega))
    obtain ⟨o, ho, h1, h2⟩ := h.slots k hk
    by_cases hzk : zoneOf s.disk x k = scanZone s.disk x i
    · have hz : scanZone s.disk x i ≠ 0 := hzk ▸ hk
      have hki : k = i := hd.inj k i hk140 hi hk (by rw [hzk, scanZone_ne hz])
      subst k
      refine ⟨some slot, ?_, fun hle => by omega, fun _ hvis => ?_⟩
      · rw [hzk, cleared_self (hkept.dirOk hd) hs (.inr ?_), h.fresh hz]
        rw [hkept.sb, ← hzk]
        exact (hd.zone i hi hk).1
      · rw [← h.next_found hvis, hsome]
    · refine ⟨o, ?_, fun hle => h1 (by omega), fun hlt hvis => ?_⟩
      · rw [cleared_sector (hkept.dirOk hd) hs ?_ hzk, ho]
        rw [hkept.sb]
        exact (hd.zone k hk140 hk).1
      · have hki : k ≠ i := by
          rintro rfl
          exact hzk (scanZone_ne (hvis k (Nat.le_refl k))).symm
        exact h2 (by omega) hvis
  latest hvis := by rw [← h.next_found fun j hj => hvis j (by omega), hsome]
  lt slot' hs' := by
    cases hs'
    exact hs
  zero h0 := by
    by_cases hz : scanZone s.disk x i = 0
    · rw [hz, cleared_self (hkept.dirOk hd) hs (.inl rfl)]
      exact zoneLink_erase (h.zero h0)
    · rw [cleared_low (hkept.dirOk hd) hs hz]
      exact h.zero h0

/-- From any turn on, the loop keeps the invariant. -/
theorem wp_deleteZones_sweep {left : Nat} (hE : s.isProcess = true → E .fault) (hd : DirOk s p x)
    (hlinks : NoDotsSector s.disk x) :
    ∀ {t : State} {i : Nat} {found : Option Nat}, i + left = 140 → Swept s t p x inodeNr i found →
      wp E (deleteZones p inodeNr left i (scanZone s.disk x) found)
        (fun _ u => ∃ found', Swept s u p x inodeNr 140 found') t := by
  induction left with
  | zero =>
    intro t i found hi h
    obtain rfl : i = 140 := by omega
    exact ⟨found, h⟩
  | succ left ih =>
    intro t i found hi h
    obtain ⟨y, hkept⟩ := h.kept
    have hdt := hkept.dirOk hd
    have hlink : zoneLink (sectorAt t.disk (scanZone s.disk x i)) ≠ 0 := by
      by_cases hz : scanZone s.disk x i = 0
      · rw [hz]
        exact h.zero ⟨i, by omega, hz⟩
      · rw [h.fresh hz]
        exact hlinks i (by omega)
    refine wp_deleteZones_clear (hkept.proc ▸ hE) hdt.layout hdt.inode hdt.num (hd.scan_le (by omega)) hlink
      (fun slot hsome => ?_) fun hnone => ih (by omega) (h.next_none hnone)
    have hs : slot < perSector := by
      cases hm : lastMatch (sectorAt t.disk (scanZone s.disk x i)) inodeNr with
      | none =>
        rw [hm, Option.none_or] at hsome
        exact h.lt slot hsome
      | some slot' =>
        rw [hm, Option.some_or, Option.some.injEq] at hsome
        exact hsome ▸ (lastMatch_some hm).1
    exact ⟨hs, ih (by omega) (h.next_some hd (by omega) hkept hs hsome)⟩

end Sweep

/-! ## Deleting at the end -/

/-- A deletion clears slot `q`, if no address up to that zone is missing. -/
def Clears (disk : Store) (x : Inode) (inodeNr q : Nat) : Prop :=
  foundAfter (matchAt disk x inodeNr) (q / perSector + 1) = some (q % perSector)

/-- No entry stays behind one that is cleared. -/
def ClearsLast (disk : Store) (x : Inode) (inodeNr : Nat) : Prop :=
  ∀ q q', q < q' → liveAt disk x (q' / perSector) (q' % perSector) ≠ none →
    Clears disk x inodeNr q → Clears disk x inodeNr q'

section Delete

variable {good : DirEntry → Prop} {n : Nat} {found : Option Nat}

theorem Packed.visible {disk : Store} (h : Packed good disk x n) {q j : Nat} (hq : q < n)
    (hj : j ≤ q / perSector) : scanZone disk x j ≠ 0 := by
  unfold scanZone
  rw [zoneArray_directPrefix fun i hi h12 => ?_]
  · exact h.zone_le hq hj
  · rw [← @zoneOf_direct disk _ _ h12]
    exact h.zone_le hq (by omega)

theorem Swept.slot_eq (h : Swept s t p x inodeNr 140 found) (hkept : DirKept s t p x y) {q : Nat}
    (hq : q < dirSlots) (hz : zoneOf s.disk x (q / perSector) ≠ 0) :
    (Blank (slotAt t.disk y q) ∨ slotAt t.disk y q = slotAt s.disk x q) ∧
      ((∀ j, j ≤ q / perSector → scanZone s.disk x j ≠ 0) →
        (Clears s.disk x inodeNr q → Blank (slotAt t.disk y q)) ∧
        (¬ Clears s.disk x inodeNr q → slotAt t.disk y q = slotAt s.disk x q)) := by
  obtain ⟨o, ho, -, hvis⟩ := h.slots _ hz
  have hslot : slotAt t.disk y q =
      entryAt (eraseSlot o (sectorAt s.disk (zoneOf s.disk x (q / perSector)))) (q % perSector) := by
    unfold slotAt dirSlot
    rw [hkept.zone, ho]
  have hsame : o ≠ some (q % perSector) → slotAt t.disk y q = slotAt s.disk x q := fun hne => by
    rw [hslot, entryAt_erase_ne hne]
    rfl
  have hblank : o = some (q % perSector) → Blank (slotAt t.disk y q) := fun heq => by
    rw [hslot, heq]
    exact entryAt_erase_self ..
  refine ⟨?_, fun hv => ?_⟩
  · by_cases heq : o = some (q % perSector)
    · exact .inl (hblank heq)
    · exact .inr (hsame heq)
  · have ho := hvis (by unfold dirSlots perSector at *; omega) hv
    unfold Clears
    rw [← ho]
    exact ⟨hblank, hsame⟩

/-- The slots before the first one that is cleared stay, and no later one is live. -/
theorem Swept.packed (h : Packed good s.disk x n) (hclears : ClearsLast s.disk x inodeNr)
    (hsw : Swept s t p x inodeNr 140 found) (hkept : DirKept s t p x y) :
    ∃ n', n' ≤ n ∧ Packed good t.disk y n' := by
  obtain ⟨n', hn', hkeep, hdrop⟩ : ∃ n', n' ≤ n ∧ (∀ q, q < n' → ¬ Clears s.disk x inodeNr q) ∧
      ∀ q, n' ≤ q → q < n → Clears s.disk x inodeNr q := by
    by_cases hex : ∃ q, q < n ∧ Clears s.disk x inodeNr q
    · classical
      obtain ⟨hlt, hfirst⟩ := Nat.find_spec hex
      refine ⟨Nat.find hex, by omega, fun q hq hc => Nat.find_min hex hq ⟨by omega, hc⟩,
        fun q hle hq => ?_⟩
      by_cases heq : q = Nat.find hex
      · rwa [heq]
      · refine hclears _ q (by omega) ?_ hfirst
        rw [h.liveAt_slot hq]
        simp
    · exact ⟨n, Nat.le_refl n, fun q hq hc => hex ⟨q, hq, hc⟩, fun q h1 h2 => by omega⟩
  have hle := h.le
  have hsame : ∀ q, q < n' → slotAt t.disk y q = slotAt s.disk x q := fun q hq =>
    ((hsw.slot_eq hkept (by omega) (h.zone q (by omega))).2
      fun j hj => h.visible (q := q) (by omega) hj).2 (hkeep q hq)
  refine ⟨n', hn', by omega, fun q hq => ?_, fun q hq => ?_, fun q hq => ?_, fun q h1 h2 h3 => ?_⟩
  · rw [hkept.zone]
    exact h.zone q (by omega)
  · rw [hsame q hq]
    exact h.live q (by omega)
  · rw [hsame q hq]
    exact h.good q (by omega)
  · rw [hkept.zone] at h3
    obtain ⟨hany, hvis⟩ := hsw.slot_eq hkept h2 h3
    by_cases hqn : q < n
    · exact (hvis fun j hj => h.visible hqn hj).1 (hdrop q h1 hqn)
    · rcases hany with hb | heq
      · exact hb
      · rw [heq]
        exact h.rest q (by omega) h2 h3

end Delete

/-! ## Runs of both operations -/

inductive DirOp where
  | add (e : DirEntry)
  | delete (inodeNr : Nat)

/-- One operation on the open directory `d`. -/
def runDirOp (d : Nat) : DirOp → M Bool
  | .add e => flushDirEntry d e
  | .delete inodeNr => do
    let dir ← dirAt d
    deleteDirEntry dir inodeNr
    pure true

def DirStep (d : Nat) (s : State) (op : DirOp) (t : State) : Prop := runDirOp d op s = .ok (true, t)

/-- The open directory `d` has its inode at `p`, and `n` entries in its first slots. -/
structure PackedAt (good : DirEntry → Prop) (s : State) (d p : Nat) (x : Inode) (n : Nat) : Prop where
  ok : DirOk s p x
  dir : ∃ dir, s.dirs d = some dir ∧ dir.inode = some p
  packed : Packed good s.disk x n

/-- Slot `q` is free, and no address up to its zone is missing. -/
structure FreeAt (disk : Store) (x : Inode) (q : Nat) : Prop where
  lt : q < dirSlots
  zone : ∀ k, k ≤ q / perSector → zoneOf disk x k ≠ 0
  free : isFree (slotAt disk x q) = true

section Step

variable {good : DirEntry → Prop} {d n : Nat}

theorem PackedAt.next_slot {q : Nat} (h : PackedAt good s d p x n) (hfree : FreeAt s.disk x q) :
    n ≤ q ∧ n < dirSlots ∧ zoneOf s.disk x (n / perSector) ≠ 0 := by
  have hle := (h.packed.free_iff hfree.lt (hfree.zone _ (Nat.le_refl _))).mp hfree.free
  exact ⟨hle, by have := hfree.lt; omega, hfree.zone _ (Nat.div_le_div_right hle)⟩

theorem PackedAt.add {q : Nat} (h : PackedAt good s d p x n) (hfree : FreeAt s.disk x q)
    (he : EntryOk e) (hlive : isFree e = false) (hgood : good e) (hstep : DirStep d s (.add e) t) :
    ∃ y, DirKept s t p x y ∧ PackedAt good t d p y (n + 1) := by
  obtain ⟨-, hn, hz⟩ := h.next_slot hfree
  obtain ⟨dir, hdir, hp⟩ := h.dir
  have hk : n / perSector < 140 := by unfold dirSlots perSector at *; omega
  obtain rfl : t = putAt s p x e (zoneOf s.disk x (n / perSector)) (n % perSector) :=
    wp_ok (E := fun _ => True) (Q := fun _ t => t = _)
      ((wp_flushDirEntry_packed h.ok hdir hp h.packed hn hz).mpr rfl) hstep
  have hkept := @putAt_kept _ _ _ e h.ok _ (n % perSector) hk hz
  exact ⟨_, hkept, hkept.dirOk h.ok, ⟨dir, hdir, hp⟩,
    putAt_packed h.ok h.packed hn hz he hlive hgood⟩

theorem wp_runDirOp_delete (hE : s.isProcess = true → E .fault) (h : PackedAt good s d p x n)
    (hlinks : NoDotsSector s.disk x) :
    wp E (runDirOp d (.delete inodeNr))
      (fun r t => r = true ∧ ∃ found, Swept s t p x inodeNr 140 found) s := by
  obtain ⟨dir, hdir, hp⟩ := h.dir
  simp only [runDirOp, dirAt, wp_bind, wp_get, wp_need, hdir, Option.some.injEq, forall_eq',
    reduceCtorEq, false_implies, and_true, wp_pure, true_and]
  exact (wp_deleteDirEntry h.ok hp).mpr (wp_deleteZones_sweep hE h.ok hlinks rfl (.start h.ok hlinks))

/-- In a kernel thread the loop comes to its end. -/
theorem PackedAt.delete_returns (hproc : s.isProcess = false) (h : PackedAt good s d p x n)
    (hlinks : NoDotsSector s.disk x) (inodeNr : Nat) :
    ∃ t found, DirStep d s (.delete inodeNr) t ∧ Swept s t p x inodeNr 140 found := by
  obtain ⟨r, t, hrun, rfl, found, hsw⟩ := ok_of_wp (@wp_runDirOp_delete (fun _ => False) _ _ inodeNr
    _ _ _ _ (fun hp => absurd (hproc.symm.trans hp) (by decide)) h hlinks)
  exact ⟨t, found, hrun, hsw⟩

theorem PackedAt.delete (h : PackedAt good s d p x n) (hlinks : NoDotsSector s.disk x)
    (hclears : ClearsLast s.disk x inodeNr) (hstep : DirStep d s (.delete inodeNr) t) :
    ∃ y n', DirKept s t p x y ∧ n' ≤ n ∧ PackedAt good t d p y n' := by
  obtain ⟨dir, hdir, hp⟩ := h.dir
  have hspec := @wp_runDirOp_delete (fun _ => True) _ _ inodeNr _ _ _ _ (fun _ => trivial) h hlinks
  obtain ⟨-, found, hsw⟩ := wp_ok hspec hstep
  obtain ⟨y, hkept⟩ := hsw.kept
  obtain ⟨n', hle, hpk⟩ := hsw.packed h.packed hclears hkept
  exact ⟨y, n', hkept, hle, hkept.dirOk h.ok, ⟨dir, by rw [hkept.dirs, hdir], hp⟩, hpk⟩

end Step

/-! ## A directory of one zone -/

theorem oneZone_kernel (entries : Store) : (oneZone entries).isProcess = false := rfl

theorem slotAt_oneZone {entries : Store} {q : Nat} (hq : q < perSector) :
    slotAt (oneZone entries).disk zoneDir q = entryAt entries q := by
  have hz : zoneOf (oneZone entries).disk zoneDir (q / perSector) = 900 := by
    rw [zoneOf_zoneDir, Nat.div_eq_of_lt hq, if_pos rfl]
  unfold slotAt dirSlot
  rw [hz, Nat.mod_eq_of_lt hq]
  exact entryAt_congr fun j hj => sectorAt_patch_self (by unfold perSector at hq; omega)

theorem oneZone_packed {good : DirEntry → Prop} {entries : Store} {n : Nat} (hn : n ≤ perSector)
    (hlive : ∀ q, q < n → isFree (entryAt entries q) = false ∧ good (entryAt entries q))
    (hrest : ∀ q, n ≤ q → q < perSector → Blank (entryAt entries q)) :
    PackedAt good (oneZone entries) 2 1 zoneDir n where
  ok := oneZone_ok entries
  dir := ⟨_, rfl, rfl⟩
  packed := by
    have hle : n ≤ dirSlots := by unfold dirSlots; omega
    refine ⟨hle, fun q hq => ?_, fun q hq => ?_, fun q hq => ?_, fun q h1 h2 h3 => ?_⟩
    · rw [zoneOf_zoneDir, Nat.div_eq_of_lt (by omega), if_pos rfl]
      decide
    · rw [slotAt_oneZone (by omega)]
      exact (hlive q hq).1
    · rw [slotAt_oneZone (by omega)]
      exact (hlive q hq).2
    · have hq : q < perSector := by
        rw [zoneOf_zoneDir] at h3
        split at h3
        · unfold perSector at *
          omega
        · exact absurd rfl h3
      rw [slotAt_oneZone hq]
      exact hrest q h1 hq

theorem twoEntries_blank {q : Nat} (hq : q < perSector) (h2 : 2 ≤ q) :
    Blank (entryAt twoEntries q) := by
  have hblank : ∀ q, q < perSector → 2 ≤ q → (entryAt twoEntries q).filename 0 = 0 ∧
      (entryAt twoEntries q).iNo = 0 ∧ (entryAt twoEntries q).fType = 0 := by decide +kernel
  obtain ⟨hn, hi, ht⟩ := hblank q hq h2
  exact ⟨hn, hi, ht⟩

theorem twoEntries_links : NoDotsSector (oneZone twoEntries).disk zoneDir := by
  intro k hk
  have hz : scanZone (oneZone twoEntries).disk zoneDir k = 900 ∨
      scanZone (oneZone twoEntries).disk zoneDir k = 0 := by
    rcases scanZone_cases (oneZone twoEntries).disk zoneDir k with h | ⟨-, h⟩
    · rw [h, zoneOf_zoneDir]
      split
      · exact .inl rfl
      · exact .inr rfl
    · exact .inr h
  rcases hz with h | h <;>
  · rw [h]
    decide +kernel

theorem twoEntries_packed : PackedAt (fun _ => True) (oneZone twoEntries) 2 1 zoneDir 2 := by
  refine oneZone_packed (by decide) (fun q hq => ⟨?_, trivial⟩) fun q h1 h2 => twoEntries_blank h2 h1
  revert q
  decide +kernel

theorem twoEntries_free {q : Nat} (h2 : 2 ≤ q) (hq : q < perSector) :
    FreeAt (oneZone twoEntries).disk zoneDir q := by
  have hdiv : q / perSector = 0 := Nat.div_eq_of_lt hq
  have hz : zoneOf (oneZone twoEntries).disk zoneDir (q / perSector) ≠ 0 := by
    rw [hdiv, zoneOf_zoneDir]
    decide
  refine ⟨by unfold dirSlots; omega, fun k hk => ?_, ?_⟩
  · rw [show k = q / perSector by omega]
    exact hz
  · exact ((PackedAt.packed twoEntries_packed).rest q h2 (by unfold dirSlots; omega) hz).isFree

theorem twoEntries_add :
    ∃ t, DirStep 2 (oneZone twoEntries) (.add (entryOf [122#8] 40 .regular)) t := by
  have hz : zoneOf (oneZone twoEntries).disk zoneDir (2 / perSector) ≠ 0 := by
    rw [zoneOf_zoneDir]
    decide
  have hadd : wp (fun _ => False) (flushDirEntry 2 (entryOf [122#8] 40 .regular)) (fun r _ => r = true)
      (oneZone twoEntries) :=
    (wp_flushDirEntry_packed (oneZone_ok twoEntries) rfl rfl (PackedAt.packed twoEntries_packed) (by decide)
      hz).mpr rfl
  obtain ⟨r, t, hrun, rfl⟩ := ok_of_wp hadd
  exact ⟨t, hrun⟩

/-- What the deletion of inode 7 leaves of the two entries. -/
structure FirstGone (disk : Store) (y : Inode) : Prop where
  blank : Blank (dirSlot disk y 0 0)
  live : liveAt disk y 0 1 = some (entryAt twoEntries 1)
  only : ∀ {k i e}, liveAt disk y k i = some e → ∃ q, q < perSector ∧ e = entryAt twoEntries q

theorem twoEntries_hole : ∃ t y, DirStep 2 (oneZone twoEntries) (.delete 7) t ∧
    DirKept (oneZone twoEntries) t 1 zoneDir y ∧ FirstGone t.disk y := by
  obtain ⟨t, found, hstep, hsw⟩ := twoEntries_packed.delete_returns (oneZone_kernel _) twoEntries_links 7
  obtain ⟨y, hkept⟩ := hsw.kept
  have hmatch : matchAt (oneZone twoEntries).disk zoneDir 7 0 = some 0 := by decide +kernel
  have hvis : scanZone (oneZone twoEntries).disk zoneDir 0 ≠ 0 := by decide +kernel
  have hzone : zoneOf (oneZone twoEntries).disk zoneDir 0 ≠ 0 := by
    rw [zoneOf_zoneDir]
    decide
  have hslot : ∀ q, q < perSector →
      (Blank (dirSlot t.disk y 0 q) ∨ dirSlot t.disk y 0 q = entryAt twoEntries q) ∧
        (q = 0 → Blank (dirSlot t.disk y 0 q)) ∧
        (q ≠ 0 → dirSlot t.disk y 0 q = entryAt twoEntries q) := by
    intro q hq
    have hdiv : q / perSector = 0 := Nat.div_eq_of_lt hq
    have hmod : q % perSector = q := Nat.mod_eq_of_lt hq
    obtain ⟨hany, hclear⟩ := hsw.slot_eq hkept (q := q) (by unfold dirSlots; omega) (by rwa [hdiv])
    obtain ⟨h1, h2⟩ := hclear fun j hj => by rwa [show j = 0 by omega]
    simp only [Clears, hdiv, hmod, foundAfter, hmatch, Option.or_none, Option.some.injEq] at h1 h2
    rw [slotAt_oneZone hq] at hany h2
    unfold slotAt at hany h1 h2
    rw [hdiv, hmod] at hany h1 h2
    exact ⟨hany, fun h0 => h1 h0.symm, fun h0 => h2 (Ne.symm h0)⟩
  have hone := (hslot 1 (by decide)).2.2 (by decide)
  refine ⟨t, y, hstep, hkept, (hslot 0 (by decide)).2.1 rfl, ?_, fun {k i e} hlive => ?_⟩
  · exact liveAt_eq_some.mpr ⟨by decide, by decide, by rwa [hkept.zone], by decide +kernel, hone⟩
  · obtain ⟨-, hi, hz, hfree, rfl⟩ := liveAt_eq_some.mp hlive
    have hk : k = 0 := by
      by_contra hk
      rw [hkept.zone, zoneOf_zoneDir, if_neg hk] at hz
      exact hz rfl
    subst hk
    rcases (hslot i hi).1 with hb | heq
    · rw [hb.isFree] at hfree
      cases hfree
    · exact ⟨i, hi, heq⟩

end Frog.Fs
