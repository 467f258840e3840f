import Frog.Lib.Prog
import Frog.Lib.Runs
import Mathlib.Data.BitVec

/-!
# The partition scan

`scan_partitions` in `core/device/ide.c`. A link to a boot record counts from the start of the
extended partition, a logical partition from the boot record that describes it. The scan keeps the
start of the extended partition in a static variable and takes it from the fourth entry.
-/

set_option autoImplicit false

namespace Frog.Device

open Prog

/-! ## Disks -/

abbrev Lba := BitVec 32

structure PartitionTableEntry where
  fsType : BitVec 8
  endHead : BitVec 8
  endSec : BitVec 8
  endChs : BitVec 8
  offsetLba : Lba
  secCnt : Lba

structure BootSector where
  tables : Fin 4 → PartitionTableEntry
  signature : BitVec 16

def DPT_FILE_SYSTEM_TYPE_UNKNOW : BitVec 8 := 0x0
def DPT_FILE_SYSTEM_TYPE_EXT : BitVec 8 := 0x5
def DPT_FILE_SYSTEM_TYPE_LINUX : BitVec 8 := 0x83

/-- `(80 * 1024 * 1024 / 512) - 1` -/
def maxLba : Lba := 163839

structure Partition where
  startLba : Lba
  secCnt : Lba
  myDisk : Option Nat
  name : String

/-- `sector` is what the disk has at each address. -/
structure Disk where
  name : String
  sector : Lba → BootSector
  primPartition : Fin 4 → Partition
  logicPartition : Nat → Partition

/-- The number of a partition on its disk, as in its name. -/
abbrev Part := Nat × Nat

structure Globals where
  gExtBaseOffset : Lba
  disks : Nat → Disk
  partitionList : List Part

/-- A failed `ASSERT`, or a write behind the eight logical partitions of a disk. -/
inductive Fault where
  | panic | outside
  deriving DecidableEq

abbrev M := Prog Fault Globals

/-! ## The scan -/

def PartitionTableEntry.isNull (e : PartitionTableEntry) : Bool :=
  e.endHead = 0 && e.endSec = 0 && e.endChs = 0

def ideRead (hd : Nat) (lba : Lba) : M BootSector := do
  check (lba ≤ maxLba) .panic
  let s ← get
  pure ((s.disks hd).sector lba)

def getDpt (hd : Nat) (offsetLba : Lba) : M (Fin 4 → PartitionTableEntry) := do
  let sector ← ideRead hd offsetLba
  check (sector.signature = 0xaa55) .panic
  pure sector.tables

/-- The first entry that leads to another table. -/
def extEntry (entries : Fin 4 → PartitionTableEntry) : Option PartitionTableEntry :=
  ((List.finRange 4).map entries).find? fun e =>
    !e.isNull && e.fsType = DPT_FILE_SYSTEM_TYPE_EXT

def nextDpt (hd : Nat) (entries : Fin 4 → PartitionTableEntry) :
    M (Option (Fin 4 → PartitionTableEntry)) := do
  let s ← get
  match extEntry entries with
  | some entry =>
    let next ← getDpt hd (s.gExtBaseOffset + entry.offsetLba)
    pure (some next)
  | none => pure none

def setDisk (hd : Nat) (f : Disk → Disk) : M Unit :=
  modify fun s => { s with disks := Function.update s.disks hd (f (s.disks hd)) }

def addPart (p : Part) : M Unit :=
  modify fun s => { s with partitionList := s.partitionList ++ [p] }

def Disk.part (d : Disk) (hd n : Nat) (startLba secCnt : Lba) : Partition :=
  ⟨startLba, secCnt, some hd, d.name ++ toString n⟩

def Disk.prim (d : Disk) (hd : Nat) (entries : Fin 4 → PartitionTableEntry) : Disk :=
  { d with
    primPartition := fun i => d.part hd (i.val + 1) (entries i).offsetLba (entries i).secCnt }

def Disk.logic (d : Disk) (hd idx : Nat) (startLba secCnt : Lba) : Disk :=
  { d with
    logicPartition := Function.update d.logicPartition idx (d.part hd (idx + 5) startLba secCnt) }

/-- The body of the loop, with the table that was found. -/
def setLogic (hd : Nat) (extBase : Lba) (idx : Nat) (preOffset : Lba)
    (next : Fin 4 → PartitionTableEntry) : M Unit := do
  modify fun s => { s with
    gExtBaseOffset := if s.gExtBaseOffset = 0 then extBase else s.gExtBaseOffset }
  check (idx < 8) .outside
  let s ← get
  setDisk hd fun d =>
    d.logic hd idx ((next 0).offsetLba + s.gExtBaseOffset + preOffset) (next 0).secCnt
  addPart (hd, idx + 5)

/-- The loop ends by itself or at the ninth logical partition. -/
def scanLogic (hd : Nat) (extBase : Lba) :
    Nat → Nat → (Fin 4 → PartitionTableEntry) → Lba → M Unit
  | 0, _, _, _ => stop .outside
  | left + 1, idx, entries, preOffset => do
    match ← nextDpt hd entries with
    | none => pure ()
    | some next =>
      setLogic hd extBase idx preOffset next
      scanLogic hd extBase left (idx + 1) next (next 1).offsetLba

def scanPartitions (hd : Nat) : M Unit := do
  let entries ← getDpt hd 0
  setDisk hd fun d => d.prim hd entries
  modify fun s => { s with partitionList :=
    s.partitionList ++ (List.range 4).map fun i => (hd, i + 1) }
  scanLogic hd (entries 3).offsetLba 9 0 entries 0

/-! ## Well-formed disks -/

/-- A boot record of the extended partition and where it lies. -/
structure Ebr where
  lba : Lba
  tables : Fin 4 → PartitionTableEntry

/-- The first entry is for a logical partition and the second one for a link. -/
structure BootSector.IsEbr (b : BootSector) : Prop where
  signature : b.signature = 0xaa55
  first : (b.tables 0).fsType ≠ DPT_FILE_SYSTEM_TYPE_EXT
  third : (b.tables 2).fsType = DPT_FILE_SYSTEM_TYPE_UNKNOW
  fourth : (b.tables 3).fsType = DPT_FILE_SYSTEM_TYPE_UNKNOW

/-- The boot records from the one at `base + link` on. -/
inductive EbrChain (sector : Lba → BootSector) (base : Lba) : Lba → List Ebr → Prop
  | last {link : Lba} : (sector (base + link)).IsEbr →
    ((sector (base + link)).tables 1).fsType = DPT_FILE_SYSTEM_TYPE_UNKNOW →
    EbrChain sector base link [⟨base + link, (sector (base + link)).tables⟩]
  | cons {link : Lba} {es : List Ebr} : (sector (base + link)).IsEbr →
    ((sector (base + link)).tables 1).fsType = DPT_FILE_SYSTEM_TYPE_EXT →
    EbrChain sector base ((sector (base + link)).tables 1).offsetLba es →
    EbrChain sector base link (⟨base + link, (sector (base + link)).tables⟩ :: es)

/-- The logical partition that a boot record describes, if its first entry is in use. -/
def Ebr.logical (e : Ebr) : Option (Lba × Lba) :=
  if (e.tables 0).fsType = DPT_FILE_SYSTEM_TYPE_UNKNOW then none
  else some (e.lba + (e.tables 0).offsetLba, (e.tables 0).secCnt)

/-- At most one entry of the master boot record is for an extended partition, in the slot `ext`, and
its boot records are `es`. -/
structure WellFormed (sector : Lba → BootSector) (ext : Option (Fin 4)) (es : List Ebr) :
    Prop where
  signature : (sector 0).signature = 0xaa55
  one : ∀ i, ((sector 0).tables i).fsType = DPT_FILE_SYSTEM_TYPE_EXT ↔ ext = some i
  none : ext = none → es = []
  some : ∀ i, ext = some i → ((sector 0).tables i).offsetLba ≠ 0 ∧
    EbrChain sector ((sector 0).tables i).offsetLba 0 es
  few : (es.filterMap Ebr.logical).length ≤ 8

/-- The partitions of the disk are as the tables say, and the other slots as they were in `d`. -/
structure Scanned (d e : Disk) (es : List Ebr) : Prop where
  name : e.name = d.name
  sector : e.sector = d.sector
  prim : ∀ i, (e.primPartition i).startLba = ((d.sector 0).tables i).offsetLba ∧
    (e.primPartition i).secCnt = ((d.sector 0).tables i).secCnt
  logic : ∀ k p, (es.filterMap Ebr.logical)[k]? = some p →
    (e.logicPartition k).startLba = p.1 ∧ (e.logicPartition k).secCnt = p.2
  rest : ∀ k, (es.filterMap Ebr.logical).length ≤ k → e.logicPartition k = d.logicPartition k

/-! ## The condition -/

/-- The boot record is one that the scan can read, its first entry is in use, and a link in it is
not taken for an unused entry. -/
structure Ebr.Plain (e : Ebr) : Prop where
  near : e.lba ≤ maxLba
  used : (e.tables 0).fsType ≠ DPT_FILE_SYSTEM_TYPE_UNKNOW
  link : (e.tables 1).fsType = DPT_FILE_SYSTEM_TYPE_EXT → (e.tables 1).isNull = false

/-- The extended partition starts where the fourth entry says, and no other disk had one before. -/
def Plain (s : Globals) (hd : Nat) (ext : Option (Fin 4)) (es : List Ebr) : Prop :=
  ∀ i, ext = some i → s.gExtBaseOffset = 0 ∧
    (((s.disks hd).sector 0).tables 3).offsetLba = (((s.disks hd).sector 0).tables i).offsetLba ∧
    (((s.disks hd).sector 0).tables i).isNull = false ∧ ∀ e ∈ es, e.Plain

/-! ## Tables -/

section Tables
variable {t : Fin 4 → PartitionTableEntry} {i : Fin 4}

theorem extEntry_eq (h : ∀ j, (t j).fsType = DPT_FILE_SYSTEM_TYPE_EXT ↔ j = i)
    (hn : (t i).isNull = false) : extEntry t = some (t i) := by
  have hp : (fun e : PartitionTableEntry => !e.isNull && decide (e.fsType =
      DPT_FILE_SYSTEM_TYPE_EXT)) ∘ t = fun j => decide (j = i) := by
    funext j
    by_cases hj : j = i
    · subst hj
      simp [hn, (h j).mpr rfl]
    · simp [h j, hj]
  rw [extEntry, List.find?_map, hp]
  have hfind : ∀ i : Fin 4, (List.finRange 4).find? (fun j => decide (j = i)) = some i := by
    decide
  rw [hfind]
  rfl

theorem extEntry_eq_none (h : ∀ j, (t j).fsType ≠ DPT_FILE_SYSTEM_TYPE_EXT) :
    extEntry t = none := by
  rw [extEntry, List.find?_eq_none]
  intro e he
  obtain ⟨j, -, rfl⟩ := List.mem_map.mp he
  simp [h j]

/-- Only the second entry of a boot record can be a link. -/
theorem BootSector.IsEbr.ext_iff {b : BootSector} (h : b.IsEbr)
    (hl : (b.tables 1).fsType = DPT_FILE_SYSTEM_TYPE_EXT) (j : Fin 4) :
    (b.tables j).fsType = DPT_FILE_SYSTEM_TYPE_EXT ↔ j = 1 := by
  have h0 := h.first
  have h2 : (b.tables 2).fsType ≠ DPT_FILE_SYSTEM_TYPE_EXT := by rw [h.third]; decide
  have h3 : (b.tables 3).fsType ≠ DPT_FILE_SYSTEM_TYPE_EXT := by rw [h.fourth]; decide
  match j with
  | 0 => exact iff_of_false h0 (by decide)
  | 1 => exact iff_of_true hl rfl
  | 2 => exact iff_of_false h2 (by decide)
  | 3 => exact iff_of_false h3 (by decide)

theorem BootSector.IsEbr.no_ext {b : BootSector} (h : b.IsEbr)
    (hl : (b.tables 1).fsType = DPT_FILE_SYSTEM_TYPE_UNKNOW) (j : Fin 4) :
    (b.tables j).fsType ≠ DPT_FILE_SYSTEM_TYPE_EXT := by
  have h0 := h.first
  match j with
  | 0 => exact h0
  | 1 => rw [hl]; decide
  | 2 => rw [h.third]; decide
  | 3 => rw [h.fourth]; decide

end Tables

/-! ## The loop -/

/-- Each boot record of the list is recorded as a logical partition, from the number `idx` on. -/
def Disk.logics (d : Disk) (hd : Nat) : Nat → List Ebr → Disk
  | _, [] => d
  | idx, e :: es =>
    (d.logic hd idx (e.lba + (e.tables 0).offsetLba) (e.tables 0).secCnt).logics hd (idx + 1) es

/-- The state that the loop leaves. -/
def Globals.scanned (s : Globals) (hd : Nat) (base : Lba) (idx : Nat) (es : List Ebr) : Globals :=
  { gExtBaseOffset := base
    disks := Function.update s.disks hd ((s.disks hd).logics hd idx es)
    partitionList := s.partitionList ++ (List.range es.length).map fun k => (hd, idx + k + 5) }

section Loop
variable {s : Globals} {hd idx : Nat} {base link extBase : Lba} {es : List Ebr}

@[simp] theorem logic_sector {d : Disk} {start cnt : Lba} :
    (d.logic hd idx start cnt).sector = d.sector := rfl

theorem getDpt_eq {lba : Lba} (hl : lba ≤ maxLba)
    (hs : ((s.disks hd).sector lba).signature = 0xaa55) :
    getDpt hd lba s = .ok (((s.disks hd).sector lba).tables, s) := by
  apply run_eq_of_wp
  simp only [getDpt, ideRead, wp_bind, wp_check, wp_get, wp_pure, hl, hs, not_true, false_implies,
    true_implies, and_self]

theorem nextDpt_some {t : Fin 4 → PartitionTableEntry} {e : PartitionTableEntry}
    (he : extEntry t = some e) (hl : s.gExtBaseOffset + e.offsetLba ≤ maxLba)
    (hs : ((s.disks hd).sector (s.gExtBaseOffset + e.offsetLba)).signature = 0xaa55) :
    nextDpt hd t s = .ok (some ((s.disks hd).sector (s.gExtBaseOffset + e.offsetLba)).tables, s) := by
  rw [nextDpt, bind_ok (get_apply s), he]
  simp only
  rw [bind_ok (getDpt_eq hl hs)]
  rfl

theorem nextDpt_none {t : Fin 4 → PartitionTableEntry} (he : extEntry t = none) :
    nextDpt hd t s = .ok (none, s) := by
  rw [nextDpt, bind_ok (get_apply s), he]
  rfl

theorem scanned_cons {e : Ebr} : (s.scanned hd base idx [e]).scanned hd base (idx + 1) es =
    s.scanned hd base idx (e :: es) := by
  have hlist : (List.range (es.length + 1)).map (fun k => (hd, idx + k + 5)) =
      (hd, idx + 5) :: (List.range es.length).map fun k => (hd, idx + 1 + k + 5) := by
    rw [List.range_succ_eq_map, List.map_cons, List.map_map]
    congr 1
    refine List.map_congr_left fun k _ => ?_
    simp only [Function.comp_apply, Prod.mk.injEq, true_and]
    omega
  simp only [Globals.scanned, Function.update_self, Function.update_idem, Disk.logics,
    List.length_cons, hlist]
  simp

theorem setLogic_eq {e : Ebr} (hlba : e.lba = base + link)
    (hbase : (if s.gExtBaseOffset = 0 then extBase else s.gExtBaseOffset) = base)
    (hidx : idx < 8) :
    setLogic hd extBase idx link e.tables s = .ok ((), s.scanned hd base idx [e]) := by
  apply run_eq_of_wp
  have hstart : (e.tables 0).offsetLba + base + link = e.lba + (e.tables 0).offsetLba := by
    rw [hlba, BitVec.add_assoc, BitVec.add_comm]
  simp only [setLogic, setDisk, addPart, wp_bind, wp_modify, wp_check, wp_get, hbase, hidx,
    not_true, false_implies, true_implies, and_true, true_and, hstart]
  rfl

/-- One round of the loop, which finds the boot record at `base + link`. -/
theorem scanLogic_step {sector : Lba → BootSector} {left : Nat}
    {t : Fin 4 → PartitionTableEntry} {e : PartitionTableEntry}
    (hs : (s.disks hd).sector = sector) (he : extEntry t = some e)
    (hread : s.gExtBaseOffset + e.offsetLba = base + link)
    (hbase : (if s.gExtBaseOffset = 0 then extBase else s.gExtBaseOffset) = base)
    (hebr : (sector (base + link)).IsEbr) (hnear : base + link ≤ maxLba) (hidx : idx < 8) :
    scanLogic hd extBase (left + 1) idx t link s =
      scanLogic hd extBase left (idx + 1) (sector (base + link)).tables
        ((sector (base + link)).tables 1).offsetLba
        (s.scanned hd base idx [⟨base + link, (sector (base + link)).tables⟩]) := by
  have hnext : nextDpt hd t s = .ok (some (sector (base + link)).tables, s) := by
    rw [nextDpt_some he, hread, hs]
    · rwa [hread]
    · rw [hread, hs]
      exact hebr.signature
  rw [scanLogic, bind_ok hnext]
  exact bind_ok (setLogic_eq (e := ⟨base + link, (sector (base + link)).tables⟩) rfl hbase hidx)

/-- The loop from a table that leads to the first boot record of a chain. -/
theorem scanLogic_chain {sector : Lba → BootSector} (hc : EbrChain sector base link es)
    (hplain : ∀ e ∈ es, e.Plain) (h0 : base ≠ 0) {left : Nat} {t : Fin 4 → PartitionTableEntry}
    {e : PartitionTableEntry} (hs : (s.disks hd).sector = sector) (he : extEntry t = some e)
    (hread : s.gExtBaseOffset + e.offsetLba = base + link)
    (hbase : (if s.gExtBaseOffset = 0 then extBase else s.gExtBaseOffset) = base)
    (hleft : es.length < left) (hfit : idx + es.length ≤ 8) :
    scanLogic hd extBase left idx t link s = .ok ((), s.scanned hd base idx es) := by
  induction hc generalizing s idx left t e with
  | last hebr hl =>
    have hp := hplain _ (List.mem_singleton_self _)
    rw [List.length_singleton] at hleft hfit
    obtain ⟨left, rfl⟩ : ∃ m, left = m + 1 + 1 := ⟨left - 2, by omega⟩
    have hidx : idx < 8 := by omega
    rw [scanLogic_step hs he hread hbase hebr hp.near hidx, scanLogic,
      bind_ok (nextDpt_none (extEntry_eq_none (hebr.no_ext hl)))]
    rfl
  | cons hebr hl hc ih =>
    have hp := hplain _ List.mem_cons_self
    rw [List.length_cons] at hleft hfit
    obtain ⟨left, rfl⟩ := Nat.exists_eq_succ_of_ne_zero (Nat.ne_zero_of_lt hleft)
    have hlink := extEntry_eq (hebr.ext_iff hl) (hp.link hl)
    have hidx : idx < 8 := by omega
    rw [scanLogic_step hs he hread hbase hebr hp.near hidx]
    refine (ih (fun e he => hplain e (List.mem_cons_of_mem _ he)) ?_ hlink ?_ ?_ ?_ ?_).trans
      (by rw [scanned_cons])
    · simp only [Globals.scanned, Function.update_self, Disk.logics, logic_sector, hs]
    · rfl
    · exact if_neg h0
    · omega
    · omega

end Loop

/-! ## One disk -/

section Disk
variable {s : Globals} {d : Disk} {hd idx k : Nat} {es : List Ebr} {ext : Option (Fin 4)}

theorem logics_fields (d : Disk) (hd idx : Nat) (es : List Ebr) : (d.logics hd idx es).name = d.name ∧
    (d.logics hd idx es).sector = d.sector ∧
    (d.logics hd idx es).primPartition = d.primPartition := by
  induction es generalizing d idx with
  | nil => exact ⟨rfl, rfl, rfl⟩
  | cons e es ih => exact ih ..

theorem logics_of_lt (h : k < idx) :
    (d.logics hd idx es).logicPartition k = d.logicPartition k := by
  induction es generalizing d idx with
  | nil => rfl
  | cons e es ih =>
    rw [Disk.logics, ih (by omega)]
    exact Function.update_of_ne (by omega) ..

theorem logics_of_le (h : idx + es.length ≤ k) :
    (d.logics hd idx es).logicPartition k = d.logicPartition k := by
  induction es generalizing d idx with
  | nil => rfl
  | cons e es ih =>
    rw [List.length_cons] at h
    rw [Disk.logics, ih (by omega)]
    exact Function.update_of_ne (by omega) ..

theorem logics_getElem (d : Disk) (hd idx : Nat) {e : Ebr} (h : es[k]? = some e) :
    ((d.logics hd idx es).logicPartition (idx + k)).startLba = e.lba + (e.tables 0).offsetLba ∧
      ((d.logics hd idx es).logicPartition (idx + k)).secCnt = (e.tables 0).secCnt := by
  induction es generalizing d idx k with
  | nil => cases h
  | cons e' es ih =>
    cases k with
    | zero =>
      obtain rfl := Option.some.inj h
      rw [Nat.add_zero, Disk.logics, logics_of_lt (show idx < idx + 1 by omega)]
      simp only [Disk.logic, Function.update_self, Disk.part, and_self]
    | succ k =>
      rw [show idx + (k + 1) = idx + 1 + k by omega]
      exact ih _ _ h

theorem logical_plain {e : Ebr} (h : e.Plain) :
    e.logical = some (e.lba + (e.tables 0).offsetLba, (e.tables 0).secCnt) := if_neg h.used

theorem filterMap_plain (h : ∀ e ∈ es, e.Plain) : es.filterMap Ebr.logical =
    es.map fun e => (e.lba + (e.tables 0).offsetLba, (e.tables 0).secCnt) := by
  rw [← List.filterMap_eq_map]
  refine List.filterMap_congr fun e he => ?_
  exact logical_plain (h e he)

/-- The state in which the loop begins. -/
def Globals.primed (s : Globals) (hd : Nat) : Globals :=
  { s with
    disks := Function.update s.disks hd ((s.disks hd).prim hd ((s.disks hd).sector 0).tables)
    partitionList := s.partitionList ++ (List.range 4).map fun i => (hd, i + 1) }

theorem scanPartitions_eq (hs : ((s.disks hd).sector 0).signature = 0xaa55) :
    scanPartitions hd s = scanLogic hd (((s.disks hd).sector 0).tables 3).offsetLba 9 0
      ((s.disks hd).sector 0).tables 0 (s.primed hd) := by
  rw [scanPartitions, bind_ok (getDpt_eq (by decide) hs), setDisk, bind_ok (modify_apply _ s),
    bind_ok (modify_apply _ _)]
  rfl

/-- A scan of a plain disk records its partitions and leaves the other disks alone. -/
theorem scan_plain (hwf : WellFormed (s.disks hd).sector ext es) (hp : Plain s hd ext es) :
    ∃ t, scanPartitions hd s = .ok ((), t) ∧ Scanned (s.disks hd) (t.disks hd) es ∧
      ∀ d, d ≠ hd → t.disks d = s.disks d := by
  rw [scanPartitions_eq hwf.signature]
  have hprimed : ∀ d, d ≠ hd → (s.primed hd).disks d = s.disks d := fun d hd' =>
    Function.update_of_ne hd' ..
  have hself : (s.primed hd).disks hd =
      (s.disks hd).prim hd ((s.disks hd).sector 0).tables := Function.update_self ..
  cases ext with
  | none =>
    obtain rfl := hwf.none rfl
    have hno : ∀ j, (((s.disks hd).sector 0).tables j).fsType ≠ DPT_FILE_SYSTEM_TYPE_EXT :=
      fun j hj => nomatch (hwf.one j).mp hj
    refine ⟨s.primed hd, ?_, ?_, hprimed⟩
    · rw [scanLogic, bind_ok (nextDpt_none (extEntry_eq_none hno))]
      rfl
    · rw [hself]
      refine ⟨rfl, rfl, fun i => ⟨rfl, rfl⟩, fun k p h => ?_, fun k _ => rfl⟩
      cases h
  | some i =>
    obtain ⟨h0, hchain⟩ := hwf.some i rfl
    obtain ⟨hg, hslot, hvis, hplain⟩ := hp i rfl
    have hone : ∀ j, (((s.disks hd).sector 0).tables j).fsType = DPT_FILE_SYSTEM_TYPE_EXT ↔
        j = i := fun j => (hwf.one j).trans ⟨fun h => (Option.some.inj h).symm, fun h => h ▸ rfl⟩
    have hlen : es.length ≤ 8 := by
      have hfew := hwf.few
      rwa [filterMap_plain hplain, List.length_map] at hfew
    have hsec : ((s.primed hd).disks hd).sector = (s.disks hd).sector := by
      rw [hself]
      rfl
    have hgp : (s.primed hd).gExtBaseOffset = 0 := hg
    refine ⟨_, scanLogic_chain hchain hplain h0 hsec (extEntry_eq hone hvis) ?_ ?_ (by omega)
      (by omega), ?_, ?_⟩
    · rw [hgp]
      exact (BitVec.zero_add _).trans (BitVec.add_zero _).symm
    · rw [hgp, if_pos rfl, hslot]
    · simp only [Globals.scanned, Function.update_self, hself]
      obtain ⟨hname, hsector, hprim⟩ :=
        logics_fields ((s.disks hd).prim hd ((s.disks hd).sector 0).tables) hd 0 es
      refine ⟨hname, hsector, fun j => ?_, fun k p h => ?_, fun k h => ?_⟩
      · rw [hprim]
        exact ⟨rfl, rfl⟩
      · rw [filterMap_plain hplain, List.getElem?_map] at h
        obtain ⟨e, he, rfl⟩ := Option.map_eq_some_iff.mp h
        have hget := logics_getElem ((s.disks hd).prim hd ((s.disks hd).sector 0).tables) hd 0 he
        rw [Nat.zero_add] at hget
        exact hget
      · rw [filterMap_plain hplain, List.length_map] at h
        exact logics_of_le (by omega)
    · intro d hd'
      exact (Function.update_of_ne hd' ..).trans (hprimed d hd')

end Disk

/-! ## Scans one after another -/

def Step (s : Globals) (hd : Nat) (t : Globals) : Prop := scanPartitions hd s = .ok ((), t)

theorem Scanned.trans {d e f : Disk} {es : List Ebr} (h : Scanned d e es) (h' : Scanned e f es) :
    Scanned d f es := by
  refine ⟨h'.name.trans h.name, h'.sector.trans h.sector, fun i => ?_, h'.logic, fun k hk => ?_⟩
  · rw [← h.sector]
    exact h'.prim i
  · exact (h'.rest k hk).trans (h.rest k hk)

section Runs
variable {s t : Globals} {ds : List Nat} {ext : Nat → Option (Fin 4)} {es : Nat → List Ebr}

/-- The scans of plain disks. -/
abbrev PlainStep (ext : Nat → Option (Fin 4)) (es : Nat → List Ebr) :
    Globals → Nat → Globals → Prop :=
  Guarded (fun s hd => Plain s hd (ext hd) (es hd)) Step

theorem PlainStep.scanned {hd : Nat} (hwf : WellFormed (s.disks hd).sector (ext hd) (es hd))
    (h : PlainStep ext es s hd t) : Scanned (s.disks hd) (t.disks hd) (es hd) ∧
      ∀ d, d ≠ hd → t.disks d = s.disks d := by
  obtain ⟨u, hu, hscan, hother⟩ := scan_plain hwf h.1
  cases h.2.symm.trans hu
  exact ⟨hscan, hother⟩

/-- After the scans every scanned disk has its partitions, the other disks are as before, and the
next scan of a plain disk succeeds. -/
theorem scan_run (hwf : ∀ d ∈ ds, WellFormed (s.disks d).sector (ext d) (es d))
    (hrun : Run (PlainStep ext es) s ds t) :
    (∀ d ∈ ds, Scanned (s.disks d) (t.disks d) (es d)) ∧ (∀ d, d ∉ ds → t.disks d = s.disks d) ∧
      ∀ d, WellFormed (s.disks d).sector (ext d) (es d) → Plain t d (ext d) (es d) →
        ∃ u, scanPartitions d t = .ok ((), u) := by
  induction hrun with
  | nil s =>
    refine ⟨fun d hd => (nomatch hd), fun _ _ => rfl, fun d hd hp => ?_⟩
    obtain ⟨u, hu, -, -⟩ := scan_plain hd hp
    exact ⟨u, hu⟩
  | @cons s u t hd ds hst hrun ih =>
    obtain ⟨hscan, hother⟩ := hst.scanned (hwf hd List.mem_cons_self)
    have hsector : ∀ d, (u.disks d).sector = (s.disks d).sector := by
      intro d
      by_cases hd' : d = hd
      · subst hd'
        exact hscan.sector
      · rw [hother d hd']
    obtain ⟨hin, hout, hnext⟩ := ih fun d hd => by
      rw [hsector]
      exact hwf d (List.mem_cons_of_mem _ hd)
    refine ⟨fun d hmem => ?_, fun d hmem => ?_, fun d hd => hnext d (by rwa [hsector])⟩
    · by_cases hd' : d = hd
      · subst hd'
        by_cases hds : d ∈ ds
        · exact hscan.trans (hin d hds)
        · rw [hout d hds]
          exact hscan
      · rw [← hother d hd']
        exact hin d ((List.mem_cons.mp hmem).resolve_left hd')
    · rw [List.mem_cons, not_or] at hmem
      rw [hout d hmem.2, hother d hmem.1]

end Runs

/-! ## Small disks -/

/-- An entry of a type, with its end on the disk. -/
def entryOf (fsType : BitVec 8) (offset cnt : Lba) : PartitionTableEntry :=
  ⟨fsType, 1, 1, 1, offset, cnt⟩

def noEntry : PartitionTableEntry := ⟨0, 0, 0, 0, 0, 0⟩

/-- An extended partition at sector 10 in the slot `i`, with logical partitions at 11 and 21. -/
def extDisk (i : Fin 4) : Lba → BootSector := fun lba =>
  if lba = 0 then
    ⟨fun j => if j = i then entryOf DPT_FILE_SYSTEM_TYPE_EXT 10 30 else noEntry, 0xaa55⟩
  else if lba = 10 then
    ⟨fun j => if j = 0 then entryOf DPT_FILE_SYSTEM_TYPE_LINUX 1 5
      else if j = 1 then entryOf DPT_FILE_SYSTEM_TYPE_EXT 10 9 else noEntry, 0xaa55⟩
  else ⟨fun j => if j = 0 then entryOf DPT_FILE_SYSTEM_TYPE_LINUX 1 8 else noEntry, 0xaa55⟩

def extChain (i : Fin 4) : List Ebr := [⟨10, (extDisk i 10).tables⟩, ⟨20, (extDisk i 20).tables⟩]

theorem extDisk_wellFormed (i : Fin 4) : WellFormed (extDisk i) (some i) (extChain i) := by
  have hfirst : (extDisk i 10).IsEbr := ⟨rfl, (by decide : (0x83 : BitVec 8) ≠ 0x5), rfl, rfl⟩
  have hsecond : (extDisk i 20).IsEbr := ⟨rfl, (by decide : (0x83 : BitVec 8) ≠ 0x5), rfl, rfl⟩
  have hmbr : ∀ j, ((extDisk i 0).tables j) =
      if j = i then entryOf DPT_FILE_SYSTEM_TYPE_EXT 10 30 else noEntry := fun _ => rfl
  refine ⟨rfl, fun j => ?_, fun h => (nomatch h), ?_, ?_⟩
  · rw [hmbr, Option.some_inj]
    by_cases hj : j = i
    · rw [if_pos hj]
      exact iff_of_true rfl hj.symm
    · rw [if_neg hj]
      exact iff_of_false (by decide) (Ne.symm hj)
  · intro j hj
    obtain rfl := Option.some.inj hj
    rw [hmbr, if_pos rfl]
    exact ⟨by decide, .cons hfirst rfl (.last hsecond rfl)⟩
  · exact (List.length_filterMap_le _ _).trans (show (2 : Nat) ≤ 8 by decide)

/-- A disk without an extended partition and one with it in the slot `i`. -/
def twoDisks (i : Fin 4) : Globals where
  gExtBaseOffset := 0
  disks := fun d =>
    ⟨if d = 0 then "sda" else "sdb", if d = 0 then fun _ => ⟨fun _ => noEntry, 0xaa55⟩
      else extDisk i, fun _ => ⟨0, 0, none, "none"⟩, fun _ => ⟨0, 0, none, "none"⟩⟩
  partitionList := []

def twoExts (i : Fin 4) (d : Nat) : Option (Fin 4) := if d = 0 then none else some i

def twoChains (i : Fin 4) (d : Nat) : List Ebr := if d = 0 then [] else extChain i

theorem twoDisks_wellFormed (i : Fin 4) (d : Nat) :
    WellFormed ((twoDisks i).disks d).sector (twoExts i d) (twoChains i d) := by
  by_cases hd : d = 0
  · subst hd
    exact ⟨rfl, fun j => iff_of_false (by decide : (0 : BitVec 8) ≠ 0x5) nofun, fun _ => rfl,
      fun _ h => (nomatch h), Nat.zero_le 8⟩
  · have hext := extDisk_wellFormed i
    simpa only [twoDisks, twoExts, twoChains, if_neg hd] using hext

theorem extChain_plain (i : Fin 4) : ∀ e ∈ extChain i, e.Plain := by
  intro e he
  simp only [extChain, List.mem_cons, List.not_mem_nil, or_false] at he
  rcases he with rfl | rfl
  · exact ⟨(by decide : 10 ≤ maxLba), (by decide : (0x83 : BitVec 8) ≠ 0), fun _ => rfl⟩
  · exact ⟨(by decide : 20 ≤ maxLba), (by decide : (0x83 : BitVec 8) ≠ 0), fun h => (nomatch h)⟩

theorem scan_run_two : ∃ t, Run (PlainStep (twoExts 3) (twoChains 3)) (twoDisks 3) [0, 1] t ∧
    Scanned ((twoDisks 3).disks 1) (t.disks 1) (extChain 3) := by
  have h0 : Plain (twoDisks 3) 0 (twoExts 3 0) (twoChains 3 0) := fun _ h => (nomatch h)
  obtain ⟨s, hs, -, hother⟩ := scan_plain (twoDisks_wellFormed 3 0) h0
  have hg : s.gExtBaseOffset = 0 := by
    cases hs
    rfl
  have h1 : Plain s 1 (twoExts 3 1) (twoChains 3 1) := by
    intro i hi
    obtain rfl := Option.some.inj hi
    rw [hother 1 (by decide)]
    exact ⟨hg, rfl, rfl, extChain_plain 3⟩
  have hwf : WellFormed (s.disks 1).sector (twoExts 3 1) (twoChains 3 1) := by
    rw [hother 1 (by decide)]
    exact twoDisks_wellFormed 3 1
  obtain ⟨t, ht, -, -⟩ := scan_plain hwf h1
  have hrun : Run (PlainStep (twoExts 3) (twoChains 3)) (twoDisks 3) [0, 1] t :=
    .cons ⟨h0, hs⟩ (.cons ⟨h1, ht⟩ (.nil t))
  have hscan := (scan_run (fun d _ => twoDisks_wellFormed 3 d) hrun).1 1 (by decide)
  exact ⟨t, hrun, hscan⟩

/-- Without a base, a boot record whose link leads back to it is recorded again and again. -/
theorem scanLogic_astray {s : Globals} {hd left idx : Nat} {t : Fin 4 → PartitionTableEntry}
    {e e' : PartitionTableEntry} {o pre : Lba} (hg : s.gExtBaseOffset = 0)
    (he : extEntry t = some e) (ho : e.offsetLba = o) (hl : o ≤ maxLba)
    (hs : ((s.disks hd).sector o).signature = 0xaa55)
    (he' : extEntry ((s.disks hd).sector o).tables = some e') (ho' : e'.offsetLba = o) :
    scanLogic hd 0 left idx t pre s = .error .outside := by
  induction left generalizing s idx t e pre with
  | zero => rfl
  | succ left ih =>
    have hsum : s.gExtBaseOffset + e.offsetLba = o := by
      rw [hg, ho]
      exact BitVec.zero_add _
    have hnext : nextDpt hd t s = .ok (some ((s.disks hd).sector o).tables, s) := by
      rw [nextDpt_some he, hsum]
      · rwa [hsum]
      · rwa [hsum]
    rw [scanLogic, bind_ok hnext]
    simp only
    by_cases hidx : idx < 8
    · have hbase : (if s.gExtBaseOffset = 0 then (0 : Lba) else s.gExtBaseOffset) = 0 := by
        rw [hg, if_pos rfl]
      rw [bind_ok (setLogic_eq (e := ⟨0 + pre, ((s.disks hd).sector o).tables⟩) rfl hbase hidx)]
      have hsec : ((s.scanned hd 0 idx [⟨0 + pre, ((s.disks hd).sector o).tables⟩]).disks
          hd).sector = (s.disks hd).sector := by
        simp only [Globals.scanned, Function.update_self, Disk.logics, logic_sector]
      exact ih rfl he' ho' (by rwa [hsec]) (by rwa [hsec])
    · apply bind_error
      rw [setLogic, bind_ok (modify_apply _ s)]
      apply bind_error
      rw [check, if_neg hidx]
      rfl

/-- With the extended partition in the first slot, the link to the second boot record counts from
sector 0, leads to the first one again, and the scan does not end within the array. -/
theorem first_slot : WellFormed ((twoDisks 0).disks 1).sector (some 0) (extChain 0) ∧
    scanPartitions 1 (twoDisks 0) = .error .outside := by
  have hwf := twoDisks_wellFormed 0 1
  refine ⟨hwf, ?_⟩
  rw [scanPartitions_eq rfl]
  have hmbr : extEntry (((twoDisks 0).disks 1).sector 0).tables =
      some (entryOf DPT_FILE_SYSTEM_TYPE_EXT 10 30) := rfl
  have hebr : extEntry ((((twoDisks 0).primed 1).disks 1).sector 10).tables =
      some (entryOf DPT_FILE_SYSTEM_TYPE_EXT 10 9) := rfl
  exact scanLogic_astray rfl hmbr rfl (by decide) rfl hebr rfl

end Frog.Device
