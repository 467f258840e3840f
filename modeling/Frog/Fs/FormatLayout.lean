import Frog.Fs.Run

/-!
# The layout a partition is formatted with

`partition_format` places six areas one behind the other and writes a zone bitmap whose clear
bits are meant to be the sectors of the last area, the root directory's sector excepted.
-/

namespace Frog.Fs

set_option autoImplicit false
open Bytes Prog

/-- A run of sectors on the disk. -/
structure Area where
  lba : Nat
  cnt : Nat

def Area.Disjoint (a b : Area) : Prop := a.lba + a.cnt ≤ b.lba ∨ b.lba + b.cnt ≤ a.lba

def Area.Within (a b : Area) : Prop := b.lba ≤ a.lba ∧ a.lba + a.cnt ≤ b.lba + b.cnt

/-- `zones_sz`. -/
def zonesSz (secCnt : Nat) : Nat := u32Sub (freeSectorSz secCnt) (zoneBitmapSz secCnt)

/-- Boot sector, super block, inode bitmap, zone bitmap, inode table and data area. -/
def areas (startLba secCnt : Nat) : List Area :=
  let sb := formatBlock startLba secCnt
  [⟨startLba, 1⟩, ⟨u32 (startLba + 1), 1⟩, ⟨sb.sImapLba, sb.sImapSz⟩,
    ⟨sb.sZmapLba, sb.sZmapSz⟩, ⟨sb.sInodeTableLba, sb.sInodeTableSz⟩,
    ⟨sb.sDataStartLba, zonesSz secCnt⟩]

/-- Bit `b` of the zone bitmap that lies on the disk is clear. -/
def ClearBit (disk : Store) (sb : SuperBlock) (b : Nat) : Prop :=
  b < 4096 * sb.sZmapSz ∧ (disk (512 * sb.sZmapLba + b / 8)).getLsbD (b % 8) = false

/-- A sector of the data area and of the partition, other than the root directory's. -/
def FreeSector (startLba secCnt lba : Nat) : Prop :=
  let sb := formatBlock startLba secCnt
  sb.sDataStartLba < lba ∧ lba < sb.sDataStartLba + zonesSz secCnt ∧ lba < startLba + secCnt

/-- What formatting is for. -/
structure Formatted (startLba secCnt : Nat) (disk : Store) : Prop where
  disjoint : (areas startLba secCnt).Pairwise Area.Disjoint
  within : ∀ a ∈ areas startLba secCnt, a.Within ⟨startLba, secCnt⟩
  clear : ∀ b, ClearBit disk (formatBlock startLba secCnt) b →
    FreeSector startLba secCnt (u32 ((formatBlock startLba secCnt).sDataStartLba + b))
  covered : ∀ lba, FreeSector startLba secCnt lba →
    ∃ b, ClearBit disk (formatBlock startLba secCnt) b ∧
      u32 ((formatBlock startLba secCnt).sDataStartLba + b) = lba

/-! ## The bitmap's bytes -/

theorem clearLow_getLsbD {k j : Nat} (hk : k < 8) (hj : j < 8) :
    (clearLow k).getLsbD j = decide (k < j) := by
  have h : ∀ k < 8, ∀ j < 8, (clearLow k).getLsbD j = decide (k < j) := by decide
  exact h k hk j hj

/-- The clear bits run to `len` itself; the root's bit is set unless its byte is the last. -/
theorem zoneMapBytes_clear {len b : Nat} (hb : b < 4096 * ((len + 4095) / 4096)) :
    (zoneMapBytes len (b / 8)).getLsbD (b % 8) = false ↔ b ≤ len ∧ (b = 0 → len < 8) := by
  have hm : b % 8 < 8 := Nat.mod_lt _ (by norm_num)
  unfold zoneMapBytes
  by_cases h1 : b / 8 = len / 8
  · rw [if_pos h1, clearLow_getLsbD (Nat.mod_lt _ (by norm_num)) hm]
    simp only [decide_eq_false_iff_not]
    omega
  · rw [if_neg h1]
    by_cases h2 : len / 8 < b / 8
    · rw [if_pos (by omega), Bitmap.ff_getLsbD hm]
      simp only [Bool.true_eq_false, false_iff]
      omega
    · rw [if_neg (by omega)]
      by_cases h3 : b / 8 = 0
      · have h : ∀ j < 8, (1 : Byte).getLsbD j = false ↔ j ≠ 0 := by decide
        rw [if_pos h3, h _ hm]
        omega
      · rw [if_neg h3]
        simp only [BitVec.ofNat_eq_ofNat, BitVec.getLsbD_zero, true_iff]
        omega

/-! ## The sizes -/

/-- The sizes as plain numbers, when no subtraction or rounding wraps. -/
theorem sizes {secCnt : Nat} (h : 803 ≤ secCnt) (hc : secCnt + 3292 < 2 ^ 32) :
    freeSectorSz secCnt = secCnt - 803 ∧
      bmLen secCnt = secCnt - 803 - (secCnt + 3292) / 4096 ∧
      zoneBitmapSz secCnt = (bmLen secCnt + 4095) / 4096 ∧
      zonesSz secCnt = secCnt - 803 - zoneBitmapSz secCnt := by
  have hf : freeSectorSz secCnt = secCnt - 803 := u32Sub_of_le h (by omega)
  have ha : divRoundUp (secCnt - 803) 4096 = (secCnt + 3292) / 4096 := by
    unfold divRoundUp
    rw [u32_of_lt (by omega)]
    exact congrArg (· / 4096) (by omega)
  have hb : bmLen secCnt = secCnt - 803 - (secCnt + 3292) / 4096 := by
    rw [bmLen, hf, ha, u32Sub_of_le (by omega) (by omega)]
  have hz : zoneBitmapSz secCnt = (bmLen secCnt + 4095) / 4096 := by
    unfold zoneBitmapSz divRoundUp
    rw [u32_of_lt (by omega)]
  refine ⟨hf, hb, hz, ?_⟩
  unfold zonesSz
  rw [hf, u32Sub_of_le (by omega) (by omega)]

/-- Rounding up wraps for the largest numbers and gives zero. -/
theorem divRoundUp_wrap {n : Nat} (h : 2 ^ 32 - 4096 < n) (hn : n < 2 ^ 32) :
    divRoundUp n 4096 = 0 := by
  unfold divRoundUp u32
  omega

/-- A partition too small for the fixed areas, or so large that a rounding wraps, gets a zone
bitmap of no sectors. -/
theorem zoneBitmapSz_wrap {secCnt : Nat} (hc : secCnt < 2 ^ 32)
    (h : secCnt < 803 ∨ 2 ^ 32 ≤ secCnt + 3292) : zoneBitmapSz secCnt = 0 := by
  have hf : 2 ^ 32 - 4096 < freeSectorSz secCnt ∧ freeSectorSz secCnt < 2 ^ 32 := by
    unfold freeSectorSz u32Sub inodeBitmapSz inodeTableSz
    omega
  have hb : bmLen secCnt = freeSectorSz secCnt := by
    rw [bmLen, divRoundUp_wrap hf.1 hf.2, u32Sub_of_le (by omega) hf.2, Nat.sub_zero]
  rw [zoneBitmapSz, hb, divRoundUp_wrap hf.1 hf.2]

/-! ## The run -/

/-- The disk after a format that runs to its end. -/
def formatDisk (startLba secCnt : Nat) (s : State) : Store :=
  let sb := formatBlock startLba secCnt
  let disk := patch s.disk (512 * u32 (startLba + 1)) 512 (sb.toBytes (s.env.junk 0))
  let disk := patch disk (512 * sb.sZmapLba) (512 * sb.sZmapSz) (zoneMapBytes (bmLen secCnt))
  let disk := patch disk (512 * sb.sImapLba) (512 * sb.sImapSz) inodeMapBytes
  let disk := patch disk (512 * sb.sInodeTableLba) (512 * sb.sInodeTableSz)
    (patch (fun _ => 0) 0 100 (rootInode sb.sDataStartLba).toBytes)
  patch disk (512 * sb.sDataStartLba) 512 (dotsSector 0 0)

/-- The memory and the disk hold what the format writes. -/
structure Writable (startLba secCnt : Nat) (s : State) : Prop where
  nonempty : 0 < secCnt
  memory : s.env.malloc 0 = true
  buffer : bmLen secCnt / 4096 + 1 ≤ max (max inodeBitmapSz (zoneBitmapSz secCnt)) inodeTableSz
  super : u32 (startLba + 1) ≤ maxLba
  zmap : 0 < zoneBitmapSz secCnt ∧
    (formatBlock startLba secCnt).sZmapLba + zoneBitmapSz secCnt ≤ maxLba + 1
  imap : (formatBlock startLba secCnt).sImapLba ≤ maxLba
  itable : (formatBlock startLba secCnt).sInodeTableLba + 800 ≤ maxLba + 1
  data : (formatBlock startLba secCnt).sDataStartLba ≤ maxLba

theorem bufSz_pos (startLba secCnt : Nat) :
    0 < max (max (formatBlock startLba secCnt).sImapSz (formatBlock startLba secCnt).sZmapSz)
      (formatBlock startLba secCnt).sInodeTableSz * 512 := by
  have h : (formatBlock startLba secCnt).sInodeTableSz = 800 := rfl
  omega

/-- A format that returns has found everything it needs. -/
theorem wp_partitionFormat {s : State} {startLba secCnt : Nat} (hc : 0 < secCnt) :
    wp (fun _ => True) (partitionFormat startLba secCnt)
      (fun _ t => Writable startLba secCnt s ∧ t.disk = formatDisk startLba secCnt s) s := by
  unfold partitionFormat
  rw [if_neg (by omega)]
  simp only [wp_bind, wp_readJunk, wp_ideWrite, mustMalloc, wp_check,
    wp_sysMalloc (bufSz_pos startLba secCnt), implies_true, and_true]
  rintro ⟨-, hsuper⟩ hmem hb hzmap ⟨-, himap⟩ ⟨-, hitable⟩ ⟨-, hdata⟩
  refine ⟨⟨hc, hmem, hb, by omega, hzmap, ?_, hitable, ?_⟩, rfl⟩
  · exact Nat.le_of_succ_le_succ himap
  · exact Nat.le_of_succ_le_succ hdata

theorem partitionFormat_returns {s : State} {startLba secCnt : Nat}
    (h : Writable startLba secCnt s) :
    ∃ t, partitionFormat startLba secCnt s = .ok ((), t) := by
  have hw : wp (fun _ => False) (partitionFormat startLba secCnt) (fun _ _ => True) s := by
    unfold partitionFormat
    rw [if_neg (Nat.pos_iff_ne_zero.mp h.nonempty)]
    simp only [wp_bind, wp_readJunk, wp_ideWrite, mustMalloc, wp_check,
      wp_sysMalloc (bufSz_pos startLba secCnt), imp_false, not_not, implies_true, true_and]
    refine ⟨fun _ => ⟨fun _ => ⟨fun _ => ⟨fun _ => ⟨fun _ => ⟨fun _ => ?_, ?_⟩, ?_⟩, h.zmap⟩,
      h.buffer⟩, h.memory⟩, Nat.one_pos, Nat.succ_le_succ h.super⟩
    · exact ⟨Nat.one_pos, Nat.succ_le_succ h.data⟩
    · exact ⟨Nat.succ_pos 799, h.itable⟩
    · exact ⟨Nat.one_pos, Nat.succ_le_succ h.imap⟩
  obtain ⟨⟨⟩, t, ht, -⟩ := ok_of_wp hw
  exact ⟨t, ht⟩

/-- The run and what it leaves on the disk. -/
theorem partitionFormat_iff {s : State} {startLba secCnt : Nat} (hc : 0 < secCnt)
    (P : Store → Prop) :
    (∃ t, partitionFormat startLba secCnt s = .ok ((), t) ∧ P t.disk) ↔
      Writable startLba secCnt s ∧ P (formatDisk startLba secCnt s) := by
  constructor
  · rintro ⟨t, ht, hp⟩
    obtain ⟨hw, hd⟩ := wp_ok (wp_partitionFormat hc) ht
    exact ⟨hw, hd ▸ hp⟩
  · rintro ⟨hw, hp⟩
    obtain ⟨t, ht⟩ := partitionFormat_returns hw
    obtain ⟨-, hd⟩ := wp_ok (wp_partitionFormat hc) ht
    exact ⟨t, ht, hd ▸ hp⟩

/-! ## The addresses -/

section Placed
variable {startLba secCnt : Nat} (hd : startLba + 803 + zoneBitmapSz secCnt ≤ maxLba)
include hd

/-- No address of the layout wraps when the data area starts on the disk. -/
theorem formatBlock_lba :
    (formatBlock startLba secCnt).sImapLba = startLba + 2 ∧
      (formatBlock startLba secCnt).sZmapLba = startLba + 3 ∧
      (formatBlock startLba secCnt).sInodeTableLba = startLba + 3 + zoneBitmapSz secCnt ∧
      (formatBlock startLba secCnt).sDataStartLba = startLba + 803 + zoneBitmapSz secCnt := by
  have hm : maxLba < 2 ^ 32 := by decide
  have hi : inodeBitmapSz = 1 := rfl
  refine ⟨u32_of_lt (by omega), u32_of_lt (by omega), ?_, ?_⟩
  · show u32 (startLba + 2 + 1 + zoneBitmapSz secCnt) = _
    rw [u32_of_lt (by omega)]
  · show u32 (startLba + 2 + 1 + zoneBitmapSz secCnt + 800) = _
    rw [u32_of_lt (by omega)]
    omega

/-- Nothing written later touches the zone bitmap. -/
theorem formatDisk_zmap {s : State} {i : Nat} (hi : i < 512 * zoneBitmapSz secCnt) :
    formatDisk startLba secCnt s (512 * (formatBlock startLba secCnt).sZmapLba + i) =
      zoneMapBytes (bmLen secCnt) i := by
  obtain ⟨himap, hzmap, hitable, hdata⟩ := formatBlock_lba hd
  have hisz : (formatBlock startLba secCnt).sImapSz = 1 := rfl
  have hzsz : (formatBlock startLba secCnt).sZmapSz = zoneBitmapSz secCnt := rfl
  unfold formatDisk
  rw [patch_out (by omega), patch_out (by omega), patch_out (by omega),
    patch_in (by rw [hzsz]; omega), Nat.add_sub_cancel_left]

theorem clearBit_iff {s : State} {b : Nat}
    (hz : zoneBitmapSz secCnt = (bmLen secCnt + 4095) / 4096) :
    ClearBit (formatDisk startLba secCnt s) (formatBlock startLba secCnt) b ↔
      b < 4096 * zoneBitmapSz secCnt ∧ b ≤ bmLen secCnt ∧ (b = 0 → bmLen secCnt < 8) := by
  unfold ClearBit
  refine and_congr_right fun hb => ?_
  have hb' : b < 4096 * zoneBitmapSz secCnt := hb
  rw [formatDisk_zmap hd (by omega), zoneMapBytes_clear (hz ▸ hb')]

theorem freeSector_iff {lba : Nat} (h : 803 ≤ secCnt) (hc : secCnt + 3292 < 2 ^ 32) :
    FreeSector startLba secCnt lba ↔
      startLba + 803 + zoneBitmapSz secCnt < lba ∧ lba < startLba + secCnt := by
  obtain ⟨-, hb, hz, hs⟩ := sizes h hc
  simp only [FreeSector, (formatBlock_lba hd).2.2.2]
  omega

theorem areas_placed (h : 803 ≤ secCnt) (hc : secCnt + 3292 < 2 ^ 32) :
    (areas startLba secCnt).Pairwise Area.Disjoint ∧
      ∀ a ∈ areas startLba secCnt, a.Within ⟨startLba, secCnt⟩ := by
  obtain ⟨-, hb, hz, hs⟩ := sizes h hc
  obtain ⟨himap, hzmap, hitable, hdata⟩ := formatBlock_lba hd
  have hm : maxLba < 2 ^ 32 := by decide
  have hsuper : u32 (startLba + 1) = startLba + 1 := u32_of_lt (by omega)
  have hisz : (formatBlock startLba secCnt).sImapSz = 1 := rfl
  have hzsz : (formatBlock startLba secCnt).sZmapSz = zoneBitmapSz secCnt := rfl
  have htsz : (formatBlock startLba secCnt).sInodeTableSz = 800 := rfl
  simp only [areas, List.pairwise_cons, List.mem_cons, List.not_mem_nil, or_false, forall_eq_or_imp,
    forall_eq, List.Pairwise.nil, Area.Disjoint, Area.Within, himap, hzmap, hitable, hdata, hsuper,
    hisz, hzsz, htsz, false_implies, implies_true, and_true]
  have hfit : zoneBitmapSz secCnt + 803 ≤ secCnt := by omega
  omega

end Placed

/-! ## When the bits are right -/

/-- The bits from 1 to `bm_len` are as many as the data sectors after the root's: with `f`
sectors left and `a` bitmap sectors guessed, the rounding gives back exactly one of them and
`bm_len` is no multiple of a sector's bits. -/
def BitsMatch (secCnt : Nat) : Prop :=
  803 ≤ secCnt ∧ secCnt - 803 + 4096 < 4097 * ((secCnt + 3292) / 4096) ∧
    4097 * ((secCnt + 3292) / 4096) < secCnt - 803 + 8192

theorem BitsMatch.sizes {secCnt : Nat} (h : BitsMatch secCnt) :
    bmLen secCnt + zoneBitmapSz secCnt + 804 = secCnt ∧ bmLen secCnt < 4096 * zoneBitmapSz secCnt ∧
      8 ≤ bmLen secCnt := by
  obtain ⟨h803, hlo, hhi⟩ := h
  obtain ⟨-, hb, hz, -⟩ := Fs.sizes h803 (by omega)
  have hg : bmLen secCnt / 4096 + 2 = (secCnt + 3292) / 4096 ∧ bmLen secCnt % 4096 ≠ 0 := by
    omega
  omega

theorem formatted_of_bitsMatch {startLba secCnt : Nat} {s : State} (h : BitsMatch secCnt)
    (hd : startLba + 803 + zoneBitmapSz secCnt ≤ maxLba) :
    Formatted startLba secCnt (formatDisk startLba secCnt s) := by
  obtain ⟨hsum, hlt, h8⟩ := h.sizes
  obtain ⟨h803, -, hhi⟩ := h
  have hc : secCnt + 3292 < 2 ^ 32 := by omega
  obtain ⟨-, -, hz, -⟩ := sizes h803 hc
  obtain ⟨hdis, hin⟩ := areas_placed hd h803 hc
  have hdata := (formatBlock_lba hd).2.2.2
  have hm : maxLba = 163839 := rfl
  refine ⟨hdis, hin, fun b hclear => ?_, fun lba hfree => ?_⟩
  · rw [clearBit_iff hd hz] at hclear
    rw [freeSector_iff hd h803 hc, hdata, u32_of_lt (by omega)]
    omega
  · rw [freeSector_iff hd h803 hc] at hfree
    refine ⟨lba - (startLba + 803 + zoneBitmapSz secCnt), ?_, ?_⟩
    · rw [clearBit_iff hd hz]
      omega
    · rw [hdata, u32_of_lt (by omega)]
      omega

theorem bitsMatch_of_formatted {startLba secCnt : Nat} {s : State} (h803 : 803 ≤ secCnt)
    (hc : secCnt + 3292 < 2 ^ 32) (hpos : 0 < zoneBitmapSz secCnt)
    (hd : startLba + 803 + zoneBitmapSz secCnt ≤ maxLba)
    (h : Formatted startLba secCnt (formatDisk startLba secCnt s)) : BitsMatch secCnt := by
  obtain ⟨-, hg, hz, -⟩ := sizes h803 hc
  have hdata := (formatBlock_lba hd).2.2.2
  have hm : maxLba = 163839 := rfl
  have hclear : ∀ b, b < 4096 * zoneBitmapSz secCnt → b ≤ bmLen secCnt →
      (b = 0 → bmLen secCnt < 8) →
      startLba + 803 + zoneBitmapSz secCnt < u32 (startLba + 803 + zoneBitmapSz secCnt + b) ∧
        u32 (startLba + 803 + zoneBitmapSz secCnt + b) < startLba + secCnt := by
    intro b h1 h2 h3
    have hf := h.clear b ((clearBit_iff hd hz).mpr ⟨h1, h2, h3⟩)
    rwa [freeSector_iff hd h803 hc, hdata] at hf
  -- the root's own bit
  have h8 : 8 ≤ bmLen secCnt := by
    by_contra hlt
    have hroot := (hclear 0 (by omega) (by omega) (by omega)).1
    rw [Nat.add_zero, u32_of_lt (by omega)] at hroot
    omega
  -- the bit behind the last sector
  have hlast : ¬ (zoneBitmapSz secCnt = (secCnt + 3292) / 4096 ∧ bmLen secCnt % 4096 ≠ 0) := by
    rintro ⟨ha, hmod⟩
    have hend := hclear (bmLen secCnt) (by omega) (by omega) (by omega)
    have hsum : startLba + 803 + zoneBitmapSz secCnt + bmLen secCnt = startLba + secCnt := by omega
    rw [hsum] at hend
    unfold u32 at hend
    omega
  -- the last sector's own bit
  obtain ⟨b, hbit, hlba⟩ := h.covered (startLba + secCnt - 1) (by
    rw [freeSector_iff hd h803 hc]
    omega)
  rw [clearBit_iff hd hz] at hbit
  rw [hdata] at hlba
  have hb : startLba + 803 + zoneBitmapSz secCnt + b = startLba + secCnt - 1 := by
    unfold u32 at hlba
    omega
  have hle : secCnt ≤ bmLen secCnt + zoneBitmapSz secCnt + 804 := by omega
  have hmod : bmLen secCnt % 4096 = 0 → zoneBitmapSz secCnt + 1 ≤ (secCnt + 3292) / 4096 := by
    intro hm
    omega
  have hguess : zoneBitmapSz secCnt + 1 = (secCnt + 3292) / 4096 := by omega
  have hin : bmLen secCnt < 4096 * zoneBitmapSz secCnt := by omega
  refine ⟨h803, ?_, ?_⟩ <;> omega

theorem writable_of_bitsMatch {startLba secCnt : Nat} {s : State} (hm : s.env.malloc 0 = true)
    (h : BitsMatch secCnt) (hd : startLba + 803 + zoneBitmapSz secCnt ≤ maxLba) :
    Writable startLba secCnt s := by
  obtain ⟨hsum, hlt, h8⟩ := h.sizes
  obtain ⟨himap, hzmap, hitable, hdata⟩ := formatBlock_lba hd
  have hmax : maxLba = 163839 := rfl
  exact {
    nonempty := by omega
    memory := hm
    buffer := by omega
    super := by rw [u32_of_lt (by omega)]; omega
    zmap := by omega
    imap := by omega
    itable := by omega
    data := by omega }

/-- A layout inside the partition starts its data area on the disk, without a wrap. -/
theorem Writable.data_lba {startLba secCnt : Nat} {s : State} (h : Writable startLba secCnt s)
    (hin : ∀ a ∈ areas startLba secCnt, a.Within ⟨startLba, secCnt⟩) :
    startLba + 803 + zoneBitmapSz secCnt ≤ maxLba := by
  have hmax : maxLba = 163839 := rfl
  have hsuper : startLba ≤ u32 (startLba + 1) :=
    (hin ⟨u32 (startLba + 1), 1⟩ (by simp [areas])).1
  have hle : startLba < maxLba := by
    have := h.super
    unfold u32 at *
    omega
  have hz := h.zmap.2
  have hdata : u32 (startLba + 2 + 1 + zoneBitmapSz secCnt + 800) ≤ maxLba := h.data
  rw [u32_of_lt (by omega)] at hdata
  omega

theorem partitionFormat_exact {startLba secCnt : Nat} {s : State} (hc : secCnt < 2 ^ 32)
    (hpos : 0 < secCnt) :
    (∃ t, partitionFormat startLba secCnt s = .ok ((), t) ∧ Formatted startLba secCnt t.disk) ↔
      s.env.malloc 0 = true ∧ BitsMatch secCnt ∧
        startLba + 802 + (secCnt + 3292) / 4096 ≤ maxLba := by
  rw [partitionFormat_iff hpos (Formatted startLba secCnt)]
  constructor
  · rintro ⟨hw, hf⟩
    have hnw : 803 ≤ secCnt ∧ secCnt + 3292 < 2 ^ 32 := by
      by_contra hn
      have hz := zoneBitmapSz_wrap hc (by omega)
      have := hw.zmap.1
      omega
    have hd := hw.data_lba hf.within
    have hb := bitsMatch_of_formatted hnw.1 hnw.2 hw.zmap.1 hd hf
    obtain ⟨hsum, -, -⟩ := hb.sizes
    obtain ⟨-, hg, -, -⟩ := sizes hnw.1 hnw.2
    exact ⟨hw.memory, hb, by omega⟩
  · rintro ⟨hm, hb, hd⟩
    obtain ⟨hsum, hlt, h8⟩ := hb.sizes
    have hd' : startLba + 803 + zoneBitmapSz secCnt ≤ maxLba := by
      obtain ⟨h803, hlo, hhi⟩ := hb
      obtain ⟨-, hg, -, -⟩ := sizes h803 (by omega)
      omega
    exact ⟨writable_of_bitsMatch hm hb hd', formatted_of_bitsMatch hb hd'⟩

theorem partitionFormat_exact_one_map_sector :
    ∃ t, partitionFormat 1 (803 + 4097) State.boot = .ok ((), t) ∧ Formatted 1 (803 + 4097) t.disk :=
  (partitionFormat_exact (by norm_num) (by norm_num)).mpr
    ⟨rfl, by unfold BitsMatch; decide, by decide⟩

/-- The last bit of the loop is one too many: on most sizes it stands for the sector behind the
partition. -/
theorem partitionFormat_past_end :
    ∃ t, partitionFormat 2048 20480 State.boot = .ok ((), t) ∧
      ClearBit t.disk (formatBlock 2048 20480) 19672 ∧
      u32 ((formatBlock 2048 20480).sDataStartLba + 19672) = 2048 + 20480 ∧
      ¬ Formatted 2048 20480 t.disk := by
  have hz : zoneBitmapSz 20480 = 5 := by decide
  have hb : bmLen 20480 = 19672 := by decide
  have hw : Writable 2048 20480 State.boot :=
    ⟨by decide, rfl, by decide, by decide, by decide, by decide, by decide, by decide⟩
  obtain ⟨t, ht⟩ := partitionFormat_returns hw
  obtain ⟨-, hd⟩ := wp_ok (wp_partitionFormat (by norm_num)) ht
  have hclear : ClearBit t.disk (formatBlock 2048 20480) 19672 := by
    rw [hd, clearBit_iff (by rw [hz]; decide) (by rw [hz, hb]), hz, hb]
    omega
  have hlba : u32 ((formatBlock 2048 20480).sDataStartLba + 19672) = 2048 + 20480 := by decide
  refine ⟨t, ht, hclear, hlba, fun hf => ?_⟩
  have hend := (hf.clear 19672 hclear).2.2
  rw [hlba] at hend
  omega

end Frog.Fs
