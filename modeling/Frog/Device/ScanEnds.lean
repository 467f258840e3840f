import Frog.Device.Partitions

/-!
# Where the partition scan ends

The loop over the boot records has no bound. It returns when the chain of records ends in time, and
then it has written to the eight slots of the logical partitions only.
-/

set_option autoImplicit false

namespace Frog.Device

open Prog

/-- From the table `t`, with links that count from `base`, at most so many boot records follow, each
of them on the disk and with the signature. -/
inductive ChainEnds (sector : Lba → BootSector) (extBase : Lba) :
    Nat → Lba → (Fin 4 → PartitionTableEntry) → Prop
  | last {n : Nat} {base : Lba} {t : Fin 4 → PartitionTableEntry} : extEntry t = none →
    ChainEnds sector extBase n base t
  | link {n : Nat} {base : Lba} {t : Fin 4 → PartitionTableEntry} {e : PartitionTableEntry} :
    extEntry t = some e → base + e.offsetLba ≤ maxLba →
    (sector (base + e.offsetLba)).signature = 0xaa55 →
    ChainEnds sector extBase n (if base = 0 then extBase else base)
      (sector (base + e.offsetLba)).tables →
    ChainEnds sector extBase (n + 1) base t

/-- At most eight boot records follow the master boot record. -/
def ShortChain (s : Globals) (hd : Nat) : Prop :=
  ((s.disks hd).sector 0).signature = 0xaa55 ∧
    ChainEnds (s.disks hd).sector (((s.disks hd).sector 0).tables (Fin.last 3)).offsetLba 8
      s.gExtBaseOffset ((s.disks hd).sector 0).tables

/-- No disk but `hd` has changed, and it in the primary and the first eight logical partitions
only. -/
structure OnlyPartitions (s t : Globals) (hd : Nat) : Prop where
  others : ∀ d, d ≠ hd → t.disks d = s.disks d
  name : (t.disks hd).name = (s.disks hd).name
  sector : (t.disks hd).sector = (s.disks hd).sector
  logic : ∀ k, 8 ≤ k → (t.disks hd).logicPartition k = (s.disks hd).logicPartition k

/-- The scan returns and has written to nothing else. -/
def ScanEnds (s : Globals) (hd : Nat) : Prop :=
  ∃ t, scanPartitions hd s = .ok ((), t) ∧ OnlyPartitions s t hd

variable {s t u : Globals} {hd idx left : Nat} {extBase pre : Lba}
  {entries : Fin 4 → PartitionTableEntry}

/-! ## What the scan writes to -/

namespace OnlyPartitions

theorem refl (s : Globals) (hd : Nat) : OnlyPartitions s s hd :=
  ⟨fun _ _ => rfl, rfl, rfl, fun _ _ => rfl⟩

theorem trans (h : OnlyPartitions s t hd) (h' : OnlyPartitions t u hd) : OnlyPartitions s u hd := by
  refine ⟨?_, h'.name.trans h.name, h'.sector.trans h.sector, ?_⟩
  · intro d hd'
    exact (h'.others d hd').trans (h.others d hd')
  · intro k hk
    exact (h'.logic k hk).trans (h.logic k hk)

theorem primed (s : Globals) (hd : Nat) : OnlyPartitions s (s.primed hd) hd := by
  have hself : (s.primed hd).disks hd =
      (s.disks hd).prim hd ((s.disks hd).sector 0).tables := Function.update_self ..
  refine ⟨?_, ?_, ?_, ?_⟩
  · intro d hd'
    exact Function.update_of_ne hd' ..
  · rw [hself]
    rfl
  · rw [hself]
    rfl
  · intro k hk
    rw [hself]
    rfl

theorem scanned {base : Lba} {e : Ebr} (hidx : idx < 8) :
    OnlyPartitions s (s.scanned hd base idx [e]) hd := by
  have hself : (s.scanned hd base idx [e]).disks hd = (s.disks hd).logics hd idx [e] :=
    Function.update_self ..
  obtain ⟨hname, hsector, -⟩ := logics_fields (s.disks hd) hd idx [e]
  refine ⟨?_, ?_, ?_, ?_⟩
  · intro d hd'
    exact Function.update_of_ne hd' ..
  · rw [hself, hname]
  · rw [hself, hsector]
  · intro k hk
    rw [hself]
    exact logics_of_le (by rw [List.length_singleton]; omega)

end OnlyPartitions

/-! ## The rounds of the loop -/

/-- The state after a round that finds the table at `lba`. -/
def Globals.after (s : Globals) (hd idx : Nat) (extBase pre lba : Lba) : Globals :=
  s.scanned hd (if s.gExtBaseOffset = 0 then extBase else s.gExtBaseOffset) idx
    [⟨(if s.gExtBaseOffset = 0 then extBase else s.gExtBaseOffset) + pre,
      ((s.disks hd).sector lba).tables⟩]

theorem scanLogic_last (he : extEntry entries = none) :
    scanLogic hd extBase (left + 1) idx entries pre s = .ok ((), s) := by
  rw [scanLogic, bind_ok (nextDpt_none he)]
  rfl

theorem scanLogic_link {e : PartitionTableEntry} (he : extEntry entries = some e)
    (hl : s.gExtBaseOffset + e.offsetLba ≤ maxLba)
    (hs : ((s.disks hd).sector (s.gExtBaseOffset + e.offsetLba)).signature = 0xaa55)
    (hidx : idx < 8) :
    scanLogic hd extBase (left + 1) idx entries pre s =
      scanLogic hd extBase left (idx + 1)
        ((s.disks hd).sector (s.gExtBaseOffset + e.offsetLba)).tables
        (((s.disks hd).sector (s.gExtBaseOffset + e.offsetLba)).tables 1).offsetLba
        (s.after hd idx extBase pre (s.gExtBaseOffset + e.offsetLba)) := by
  rw [scanLogic, bind_ok (nextDpt_some he hl hs)]
  exact bind_ok (setLogic_eq (e := ⟨_ + pre, _⟩) rfl rfl hidx)

theorem getDpt_readable {lba : Lba} {tables : Fin 4 → PartitionTableEntry}
    (h : getDpt hd lba s = .ok (tables, t)) :
    lba ≤ maxLba ∧ ((s.disks hd).sector lba).signature = 0xaa55 := by
  have hw : wp (fun _ => True) (getDpt hd lba)
      (fun _ _ => lba ≤ maxLba ∧ ((s.disks hd).sector lba).signature = 0xaa55) s := by
    simp only [getDpt, ideRead, wp_bind, wp_check, wp_get, wp_pure]
    exact ⟨fun hl => ⟨fun hs => ⟨hl, hs⟩, fun _ => trivial⟩, fun _ => trivial⟩
  exact (wp_of_ok h).mp hw

/-- A round that goes on has found a table that can be read and has a slot for it. -/
theorem scanLogic_link_ok {e : PartitionTableEntry} (he : extEntry entries = some e)
    (h : scanLogic hd extBase (left + 1) idx entries pre s = .ok ((), t)) :
    s.gExtBaseOffset + e.offsetLba ≤ maxLba ∧
      ((s.disks hd).sector (s.gExtBaseOffset + e.offsetLba)).signature = 0xaa55 ∧ idx < 8 := by
  rw [scanLogic] at h
  obtain ⟨next, u, hnext, hbody⟩ := bind_eq_ok.mp h
  rw [nextDpt, bind_ok (get_apply s), he] at hnext
  obtain ⟨tables, v, hget, hpure⟩ := bind_eq_ok.mp hnext
  obtain ⟨hl, hs⟩ := getDpt_readable hget
  cases hpure
  refine ⟨hl, hs, ?_⟩
  obtain ⟨_, w, hset, -⟩ := bind_eq_ok.mp hbody
  rw [setLogic, bind_ok (modify_apply _ u)] at hset
  obtain ⟨_, x, hcheck, -⟩ := bind_eq_ok.mp hset
  exact (check_eq_ok.mp hcheck).1

/-- The loop with a slot left for each of `n` boot records. -/
theorem scanLogic_returns {n : Nat} (hn : idx + n = 8) :
    (∃ t, scanLogic hd extBase (n + 1) idx entries pre s = .ok ((), t)) ↔
      ChainEnds (s.disks hd).sector extBase n s.gExtBaseOffset entries := by
  induction n generalizing s idx entries pre with
  | zero =>
    cases he : extEntry entries with
    | none => exact iff_of_true ⟨s, scanLogic_last he⟩ (.last he)
    | some e =>
      refine iff_of_false ?_ ?_
      · intro h
        obtain ⟨t, ht⟩ := h
        have := (scanLogic_link_ok he ht).2.2
        omega
      · intro h
        cases h with
        | last hnone => simp [he] at hnone
  | succ n ih =>
    cases he : extEntry entries with
    | none => exact iff_of_true ⟨s, scanLogic_last he⟩ (.last he)
    | some e =>
      have hidx : idx < 8 := by omega
      have hsector : ((s.after hd idx extBase pre (s.gExtBaseOffset + e.offsetLba)).disks
          hd).sector = (s.disks hd).sector := (OnlyPartitions.scanned hidx).sector
      constructor
      · intro h
        obtain ⟨t, ht⟩ := h
        obtain ⟨hl, hs, -⟩ := scanLogic_link_ok he ht
        rw [scanLogic_link he hl hs hidx] at ht
        have hrest := (ih (by omega)).mp ⟨t, ht⟩
        rw [hsector] at hrest
        exact .link he hl hs hrest
      · intro h
        cases h with
        | last hnone => simp [he] at hnone
        | link he' hl hs hrest =>
          obtain rfl := Option.some.inj (he.symm.trans he')
          rw [scanLogic_link he hl hs hidx]
          refine (ih (by omega)).mpr ?_
          rw [hsector]
          exact hrest

theorem scanLogic_only {n : Nat} (hn : idx + n = 8)
    (h : scanLogic hd extBase (n + 1) idx entries pre s = .ok ((), t)) : OnlyPartitions s t hd := by
  induction n generalizing s idx entries pre with
  | zero =>
    cases he : extEntry entries with
    | none =>
      rw [scanLogic_last he] at h
      cases h
      exact .refl _ hd
    | some e =>
      have := (scanLogic_link_ok he h).2.2
      omega
  | succ n ih =>
    cases he : extEntry entries with
    | none =>
      rw [scanLogic_last he] at h
      cases h
      exact .refl _ hd
    | some e =>
      obtain ⟨hl, hs, hidx⟩ := scanLogic_link_ok he h
      rw [scanLogic_link he hl hs hidx] at h
      exact (OnlyPartitions.scanned hidx).trans (ih (by omega) h)

/-- The scan returns, with writes to the slots of the partitions only, exactly when the chain of
boot records ends in time. -/
theorem scanEnds_iff (s : Globals) (hd : Nat) : ScanEnds s hd ↔ ShortChain s hd := by
  have hprimed := OnlyPartitions.primed s hd
  have hloop : (∃ t, scanLogic hd (((s.disks hd).sector 0).tables 3).offsetLba (8 + 1) 0
      ((s.disks hd).sector 0).tables 0 (s.primed hd) = .ok ((), t)) ↔
      ChainEnds (s.disks hd).sector (((s.disks hd).sector 0).tables 3).offsetLba 8
        s.gExtBaseOffset ((s.disks hd).sector 0).tables := by
    rw [scanLogic_returns (Nat.zero_add 8), hprimed.sector]
    rfl
  constructor
  · intro h
    obtain ⟨t, ht, -⟩ := h
    have hsign : ((s.disks hd).sector 0).signature = 0xaa55 := by
      rw [scanPartitions] at ht
      obtain ⟨tables, u, hget, -⟩ := bind_eq_ok.mp ht
      exact (getDpt_readable hget).2
    rw [scanPartitions_eq hsign] at ht
    exact ⟨hsign, hloop.mp ⟨t, ht⟩⟩
  · intro h
    obtain ⟨hsign, hchain⟩ := h
    obtain ⟨t, ht⟩ := hloop.mpr hchain
    refine ⟨t, ?_, hprimed.trans (scanLogic_only (Nat.zero_add 8) ht)⟩
    rw [scanPartitions_eq hsign]
    exact ht

/-- Every sector has a table that leads to the sector 0. -/
def cyclicDisk : Globals where
  gExtBaseOffset := 0
  disks := fun _ =>
    ⟨"sda", fun _ => ⟨fun j => if j.val = 1 then entryOf DPT_FILE_SYSTEM_TYPE_EXT 0 30 else noEntry,
      0xaa55⟩, fun _ => ⟨0, 0, none, "none"⟩, fun _ => ⟨0, 0, none, "none"⟩⟩
  partitionList := []

theorem cyclic_scan : (∀ lba, ((cyclicDisk.disks 0).sector lba).signature = 0xaa55) ∧
    ¬ ScanEnds cyclicDisk 0 := by
  refine ⟨fun _ => rfl, fun h => ?_⟩
  obtain ⟨t, ht, -⟩ := h
  have hext : ∀ lba, extEntry ((cyclicDisk.disks 0).sector lba).tables =
      some (entryOf DPT_FILE_SYSTEM_TYPE_EXT 0 30) := fun _ => rfl
  rw [scanPartitions_eq rfl] at ht
  have hastray : scanLogic 0 (((cyclicDisk.disks 0).sector 0).tables 3).offsetLba 9 0
      ((cyclicDisk.disks 0).sector 0).tables 0 (cyclicDisk.primed 0) = _ :=
    scanLogic_astray rfl (hext 0) rfl (by decide) rfl (hext 0) rfl
  cases hastray.symm.trans ht

end Frog.Device
