import Frog.Fs.FileWrite
import Frog.Fs.Layout

/-!
# Writes that fail

`file_write` returns -1 wherever a zone or a block of memory is missing and undoes nothing. It leaves
everything as it was only where nothing was done yet: where it refuses the position, has no buffer, or
misses the zone for the first byte.
-/

namespace Frog.Fs

set_option autoImplicit false
open Bytes Prog Noted

/-! ## What a failed write leaves as it was -/

/-- The position, the inode in memory, both bitmaps in memory, everything on disk, and no block. -/
structure Kept (s : State) (g p : Nat) (t : State) (k : Notes) : Prop where
  pos : (t.fileTable g).fdPos = (s.fileTable g).fdPos
  inode : t.inodes p = s.inodes p
  zones : t.zoneBitmap = s.zoneBitmap
  imap : t.inodeBitmap = s.inodeBitmap
  disk : t.disk = s.disk
  blocks : k.live = 0

/-! ## What a write needs -/

inductive Need where
  | zone | memory
  deriving DecidableEq

/-- What there is of both: the zone bitmap, and which of the next `sys_malloc` calls succeed. -/
structure Supply where
  zones : Bitmap
  malloc : Nat → Bool

/-- Take things one by one, `none` when one is missing. -/
def Supply.give : List Need → Supply → Option Supply
  | [], v => some v
  | .zone :: ns, v =>
    match v.zones.findBlock 1 with
    | none => none
    | some i => give ns { v with zones := v.zones.setValue i true }
  | .memory :: ns, v =>
    if v.malloc 0 then give ns { v with malloc := fun n => v.malloc (n + 1) } else none

/-- The zone of an index that has none, behind index 12 with a block for the table. -/
def zoneNeeds (idx : Nat) : List Need :=
  if idx < 12 then [.zone]
  else if idx = 12 then [.zone, .zone, .memory]
  else [.zone, .memory]

/-- The last part of a write is staged in memory. -/
def partNeeds (chunkRest : Nat) (isLastTurn : Bool) : List Need :=
  if 0 < chunkRest ∧ isLastTurn = true then [.memory] else []

/-- What the chunks from chunk `i` on need. -/
def chunkNeeds (zones : Nat → Nat) (plan : WritePlan) : Nat → Nat → List Need
  | 0, _ => []
  | left + 1, i =>
    (if zones (plan.zoneIdx + i) = 0 then zoneNeeds (plan.zoneIdx + i) else []) ++
      partNeeds plan.chunkRest (left = 0) ++ chunkNeeds zones plan left (i + 1)

/-! ## The condition -/

/-- The plan of a call. -/
def planOf (s : State) (g : Nat) (x : Inode) (writeLen : Nat) : WritePlan :=
  writePlan (s.fileTable g).fdPos x.iSize (writeCount (s.fileTable g).fdPos writeLen) (zonesOf s x)

/-- What there is once the zones are read. -/
def supplyOf (s : State) (x : Inode) : Supply := ⟨s.zoneBitmap, (prepared s x).env.malloc⟩

/-- The call is refused or has no buffer; or it has to begin with a new zone and there is none; or all
it needs is there. -/
def FailsEarly (s : State) (g : Nat) (x : Inode) (writeLen : Nat) : Prop :=
  maxFileSize < (s.fileTable g).fdPos ∨ s.env.malloc 0 = false ∨
    ((planOf s g x writeLen).needFilledSz = 0 ∧ 0 < (planOf s g x writeLen).chunkCnt ∧
      zonesOf s x (planOf s g x writeLen).zoneIdx = 0 ∧ s.zoneBitmap.findBlock 1 = none)

def Provided (s : State) (g : Nat) (x : Inode) (writeLen : Nat) : Prop :=
  (Supply.give (chunkNeeds (zonesOf s x) (planOf s g x writeLen) (planOf s g x writeLen).chunkCnt 0)
    (supplyOf s x)).isSome

/-! ## Parts of a write -/

theorem Supply.give_append (ns ms : List Need) (v : Supply) :
    Supply.give (ns ++ ms) v = (Supply.give ns v).bind (Supply.give ms) := by
  induction ns generalizing v with
  | nil => rfl
  | cons n ns ih =>
    cases n with
    | zone =>
      simp only [List.cons_append, Supply.give]
      split
      · rfl
      · exact ih _
    | memory =>
      simp only [List.cons_append, Supply.give]
      split
      · exact ih _
      · rfl

section Give
variable {ns : List Need} {v : Supply} {i : Nat}

theorem give_zone (h : v.zones.findBlock 1 = some i) : Supply.give (.zone :: ns) v =
    Supply.give ns { v with zones := v.zones.setValue i true } := by
  simp only [Supply.give, h]

theorem give_zone_none (h : v.zones.findBlock 1 = none) : Supply.give (.zone :: ns) v = none := by
  simp only [Supply.give, h]

theorem give_memory (h : v.malloc 0 = true) : Supply.give (.memory :: ns) v =
    Supply.give ns { v with malloc := fun n => v.malloc (n + 1) } := if_pos h

theorem give_memory_none (h : ¬ v.malloc 0 = true) : Supply.give (.memory :: ns) v = none := if_neg h

theorem give_length {v' : Supply} (h : Supply.give ns v = some v') :
    v'.zones.mapBytesLength = v.zones.mapBytesLength := by
  induction ns generalizing v with
  | nil =>
    cases h
    rfl
  | cons n ns ih =>
    cases n with
    | zone =>
      rw [Supply.give] at h
      split at h
      · cases h
      · have hlen := ih h
        exact hlen
    | memory =>
      rw [Supply.give] at h
      split at h
      · have hlen := ih h
        exact hlen
      · cases h

end Give

/-- What the parts of a write change of what they depend on. -/
structure View where
  pos : Nat
  supply : Supply
  dataStart : Nat

def State.view (s : State) (g : Nat) : View :=
  ⟨(s.fileTable g).fdPos, ⟨s.zoneBitmap, s.env.malloc⟩, s.sb.sDataStartLba⟩

@[simp] theorem view_zones {s : State} {g : Nat} : (s.view g).supply.zones = s.zoneBitmap := rfl

@[simp] theorem view_malloc {s : State} {g : Nat} : (s.view g).supply.malloc = s.env.malloc := rfl

section Parts
variable {g p lba idx chunkRest w : Nat} {buf : Store} {isLastTurn : Bool} {s : State} {k : Notes}

theorem wp_allocate {E : Stop × Notes → Prop} {Q : Bool → State × Notes → Prop} {size : Nat}
    (h : 0 < size) : wp E (allocate size) Q (s, k) ↔ Q (s.env.malloc 0)
      (s.nextMalloc, if s.env.malloc 0 then { k with live := k.live + 1 } else k) :=
  wp_of_ok (allocate_run h)

@[simp] theorem wp_freed {E : Stop × Notes → Prop} {Q : Unit → State × Notes → Prop} :
    wp E freed Q (s, k) ↔ Q () (s, { k with live := k.live - 1 }) := Iff.rfl

@[simp] theorem wp_usesZones {E : Stop × Notes → Prop} {Q : Unit → State × Notes → Prop}
    {is : List Int} : wp E (usesZones is) Q (s, k) ↔
      Q () (s, { k with zoneUses := k.zoneUses ++ is }) := Iff.rfl

@[simp] theorem wp_usesTable {E : Stop × Notes → Prop} {Q : Unit → State × Notes → Prop} {i : Int} :
    wp E (usesTable i) Q (s, k) ↔ Q () (s, { k with tableUses := k.tableUses ++ [i] }) := Iff.rfl

theorem view_advanced {n : Nat} :
    (s.advanced g n).view g = { s.view g with pos := u32 ((s.view g).pos + n) } := by
  simp only [State.view, advanced_fdPos]
  rfl

/-- The bytes of one turn. -/
def turnSize (chunkRest : Nat) (isLastTurn : Bool) : Nat :=
  if 0 < chunkRest ∧ isLastTurn = true then chunkRest else 512

/-- What a turn is to do: write its bytes if it has the memory, leave the buffer of the call
allocated else. -/
def TurnEnds (s : State) (g : Nat) (live chunkRest : Nat) (isLastTurn : Bool) (r : Option Nat)
    (t : State × Notes) : Prop :=
  match Supply.give (partNeeds chunkRest isLastTurn) (s.view g).supply with
  | some v => r = some (turnSize chunkRest isLastTurn) ∧ t.2.live = live ∧
      t.1.view g = ⟨u32 ((s.view g).pos + turnSize chunkRest isLastTurn), v, (s.view g).dataStart⟩
  | none => r = none ∧ live ≤ t.2.live

theorem turnEnds_memory {r : Option Nat} {t : State × Notes}
    (h : 0 < chunkRest ∧ isLastTurn = true) : TurnEnds s g k.live chunkRest isLastTurn r t ↔
      if s.env.malloc 0 = true then r = some chunkRest ∧ t.2.live = k.live ∧
        t.1.view g = (s.nextMalloc.advanced g chunkRest).view g
      else r = none ∧ k.live ≤ t.2.live := by
  rw [TurnEnds, partNeeds, if_pos h, turnSize, if_pos h, view_advanced]
  by_cases hm : s.env.malloc 0 = true
  · simp [Supply.give, State.view, hm]
  · simp [Supply.give, State.view, hm]

theorem turnEnds_whole (h : ¬ (0 < chunkRest ∧ isLastTurn = true)) {t : State}
    (ht : t.view g = (s.advanced g 512).view g) :
    TurnEnds s g k.live chunkRest isLastTurn (some 512) (t, k) := by
  rw [TurnEnds, partNeeds, if_neg h, turnSize, if_neg h, ht, view_advanced]
  exact ⟨rfl, rfl, rfl⟩

theorem wp_writeZone : wp (fun _ => True)
    (Noted.writeZone g buf chunkRest lba isLastTurn w)
    (TurnEnds s g k.live chunkRest isLastTurn) (s, k) := by
  unfold Noted.writeZone
  rw [wp_ite]
  refine ⟨fun h => ?_, fun h => ?_⟩
  · rw [wp_bind, wp_allocate (by omega)]
    by_cases hm : s.env.malloc 0 = true
    · simp only [hm, if_true, wp_bind, wp_watch, wp_ideWrite, wp_advance, wp_freed, wp_pure,
        turnEnds_memory h]
      exact ⟨fun _ => ⟨trivial, rfl, rfl⟩, fun _ => trivial⟩
    · rw [Bool.not_eq_true] at hm
      simp only [hm, Bool.false_eq_true, if_false, wp_pure, turnEnds_memory h]
      exact ⟨trivial, le_rfl⟩
  · simp only [wp_bind, wp_watch, wp_ideWrite, wp_advance, wp_pure]
    exact ⟨fun _ => turnEnds_whole h rfl, fun _ => trivial⟩

theorem wp_rewriteZone : wp (fun _ => True)
    (Noted.rewriteZone g buf chunkRest lba isLastTurn w)
    (TurnEnds s g k.live chunkRest isLastTurn) (s, k) := by
  unfold Noted.rewriteZone
  rw [wp_ite]
  refine ⟨fun h => ?_, fun h => ?_⟩
  · rw [wp_bind, wp_allocate (by omega)]
    by_cases hm : s.env.malloc 0 = true
    · simp only [hm, if_true, wp_bind, wp_watch, wp_ideRead, wp_ideWrite, wp_advance, wp_freed,
        wp_pure, turnEnds_memory h]
      exact ⟨fun _ => ⟨fun _ => ⟨trivial, rfl, rfl⟩, fun _ => trivial⟩, fun _ => trivial⟩
    · rw [Bool.not_eq_true] at hm
      simp only [hm, Bool.false_eq_true, if_false, wp_pure, turnEnds_memory h]
      exact ⟨trivial, le_rfl⟩
  · simp only [wp_bind, wp_watch, wp_readJunk, wp_ideWrite, wp_advance, wp_pure]
    exact ⟨fun _ => turnEnds_whole h rfl, fun _ => trivial⟩

/-- The zones of the partition have addresses below -1. -/
def View.Fits (v : View) : Prop := v.dataStart + 8 * v.supply.zones.mapBytesLength < 2 ^ 32

theorem wp_takeFreeZone_any {Q : Option Nat → State → Prop} (hfit : (s.view g).Fits)
    (hnone : s.zoneBitmap.findBlock 1 = none → Q none s)
    (hsome : ∀ i lba d, s.zoneBitmap.findBlock 1 = some i →
      Q (some lba) ((s.setZoneMap (s.zoneBitmap.setValue i true)).setDisk d)) :
    wp (fun _ => True) takeFreeZone Q s := by
  unfold takeFreeZone zoneBitmapAlloc
  rw [wp_bind, wp_bind, wp_get]
  cases hf : s.zoneBitmap.findBlock 1 with
  | none => exact hnone hf
  | some i =>
    have hi := (Bitmap.findBlock_one hf).1
    have hfit : s.sb.sDataStartLba + 8 * s.zoneBitmap.mapBytesLength < 2 ^ 32 := hfit
    have hlba : orMinusOne (u32 (s.sb.sDataStartLba + i)) = some (s.sb.sDataStartLba + i) := by
      rw [u32_of_lt (by omega), orMinusOne, if_neg (by omega)]
    simp only [wp_bind, wp_setBit_zone, wp_pure, hlba, wp_get]
    refine ⟨fun _ => ?_, fun _ => trivial⟩
    unfold flushBitmap
    simp only [wp_bind, wp_get, wp_ideWrite]
    exact ⟨fun _ => hsome i _ _ hf, fun _ => trivial⟩

theorem wp_recordIndirect : wp (fun _ => True) (Noted.recordIndirect p idx lba)
    (fun r t => if s.env.malloc 0 = true
      then r = true ∧ t.2.live = k.live ∧ t.1.view g = s.nextMalloc.view g
      else r = false ∧ t.2.live = k.live) (s, k) := by
  unfold Noted.recordIndirect
  rw [wp_bind, wp_allocate (by omega)]
  by_cases hm : s.env.malloc 0 = true
  · simp only [hm, if_true, wp_bind, wp_watch, wp_inodeAt, wp_ideRead, wp_usesTable, wp_check,
      wp_ideWrite, wp_freed, wp_pure]
    refine ⟨fun x _ => ⟨fun _ => ⟨fun _ => ⟨fun _ => ?_, fun _ => trivial⟩, fun _ => trivial⟩,
      fun _ => trivial⟩, fun _ => trivial⟩
    exact ⟨trivial, rfl, rfl⟩
  · rw [Bool.not_eq_true] at hm
    simp only [hm, Bool.false_eq_true, if_false, wp_pure]
    exact ⟨trivial, trivial⟩

theorem wp_record : wp (fun _ => True)
    (do if ← Noted.recordIndirect p idx lba then pure (some lba) else pure none : W (Option Nat))
    (fun r t => if s.env.malloc 0 = true
      then r.isSome ∧ t.2.live = k.live ∧ t.1.view g = s.nextMalloc.view g
      else r = none ∧ t.2.live = k.live) (s, k) := by
  rw [wp_bind]
  refine wp_mono (wp_recordIndirect (g := g)) fun r t ht => ?_
  by_cases hm : s.env.malloc 0 = true
  · rw [if_pos hm] at ht
    simp only [ht.1, if_true, wp_pure, hm]
    exact ⟨rfl, ht.2⟩
  · rw [if_neg hm] at ht
    simp only [ht.1, Bool.false_eq_true, if_false, wp_pure, hm]
    exact ⟨trivial, ht.2⟩

/-- What taking a zone is to do. Where it fails, a block is left, or a zone has been taken, or nothing
was done. -/
def AppendEnds (s : State) (g live idx : Nat) (r : Option Nat) (t : State × Notes) : Prop :=
  match Supply.give (zoneNeeds idx) (s.view g).supply with
  | some v => r.isSome ∧ t.2.live = live ∧ t.1.view g = { s.view g with supply := v }
  | none => r = none ∧ (live ≤ t.2.live ∨ t.2.live + 1 = live ∧
      (t.1.fileTable g).fdPos = (s.fileTable g).fdPos ∧
      ((t.1 = s ∧ s.zoneBitmap.findBlock 1 = none) ∨ t.1.zoneBitmap ≠ s.zoneBitmap))

theorem taken_ne {b : Bitmap} {i : Nat} (h : b.findBlock 1 = some i) : b.setValue i true ≠ b := by
  intro he
  have hclear := (Bitmap.findBlock_one h).2.1
  rw [← he, Bitmap.getValue_setValue_self] at hclear
  cases hclear

theorem appendEnds_of_give {v : Supply} {r : Option Nat} {t : State × Notes}
    (hgive : Supply.give (zoneNeeds idx) (s.view g).supply = some v) (hr : r.isSome)
    (hlive : t.2.live = k.live) (hview : t.1.view g = { s.view g with supply := v }) :
    AppendEnds s g k.live idx r t := by
  rw [AppendEnds, hgive]
  exact ⟨hr, hlive, hview⟩

/-- The table's block decides once the zones are taken. -/
theorem appendEnds_of_record {v : Supply} {r : Option Nat} {t : State × Notes} {s' : State}
    (hgive : Supply.give (zoneNeeds idx) (s.view g).supply = Supply.give [.memory] v)
    (hview : s'.view g = { s.view g with supply := v })
    (ht : if s'.env.malloc 0 = true
      then r.isSome ∧ t.2.live = k.live ∧ t.1.view g = s'.nextMalloc.view g
      else r = none ∧ t.2.live = k.live) : AppendEnds s g k.live idx r t := by
  have hmem : v.malloc = s'.env.malloc := by
    rw [← view_malloc (g := g), hview]
  by_cases hm : s'.env.malloc 0 = true
  · rw [if_pos hm] at ht
    rw [give_memory (hmem ▸ hm)] at hgive
    refine appendEnds_of_give hgive ht.1 ht.2.1 (ht.2.2.trans ?_)
    change { s'.view g with supply := ⟨(s'.view g).supply.zones, fun n => s'.env.malloc (n + 1)⟩ } = _
    rw [hview, hmem]
  · rw [if_neg hm] at ht
    rw [give_memory_none (hmem ▸ hm)] at hgive
    rw [AppendEnds, hgive]
    exact ⟨ht.1, .inl (Nat.le_of_eq ht.2.symm)⟩

theorem wp_appendZone (hfit : (s.view g).Fits) (hk : 0 < k.live) : wp (fun _ => True)
    (Noted.appendZone p idx) (AppendEnds s g k.live idx) (s, k) := by
  have hfree : k.live - 1 + 1 = k.live := by omega
  unfold Noted.appendZone
  rw [wp_bind, wp_watch]
  refine wp_takeFreeZone_any hfit (fun hnone => ?_) fun i lba d hsome => ?_
  · have hgive : Supply.give (zoneNeeds idx) (s.view g).supply = none := by
      unfold zoneNeeds
      split
      · exact give_zone_none hnone
      · split <;> exact give_zone_none hnone
    simp only [wp_bind, wp_freed, wp_pure, AppendEnds, hgive]
    exact ⟨trivial, .inr ⟨hfree, trivial, .inl ⟨trivial, hnone⟩⟩⟩
  simp only []
  rw [wp_ite]
  refine ⟨fun h => ?_, fun h => ?_⟩
  · simp only [wp_bind, wp_watch, wp_inodeAt, wp_setInode, wp_pure]
    refine ⟨fun x _ => ?_, fun _ => trivial⟩
    refine appendEnds_of_give (v := ⟨s.zoneBitmap.setValue i true, s.env.malloc⟩) ?_ rfl rfl rfl
    rw [zoneNeeds, if_pos h]
    exact give_zone hsome
  rw [wp_ite]
  refine ⟨fun h12 => ?_, fun h12 => ?_⟩
  · have hgive : Supply.give (zoneNeeds idx) (s.view g).supply =
        Supply.give [.zone, .memory] ⟨s.zoneBitmap.setValue i true, s.env.malloc⟩ := by
      rw [zoneNeeds, if_neg h, if_pos h12]
      exact give_zone hsome
    simp only [wp_bind, wp_watch, wp_inodeAt, wp_setInode]
    refine ⟨fun x _ => ?_, fun _ => trivial⟩
    refine wp_takeFreeZone_any (g := g) hfit (fun hnone => ?_) fun i' lba' d' hsome' => ?_
    · -- the zone for the table is taken, and there is none for the data
      rw [give_zone_none hnone] at hgive
      simp only [wp_bind, wp_freed, wp_pure, AppendEnds, hgive]
      exact ⟨trivial, .inr ⟨hfree, trivial, .inr (taken_ne hsome)⟩⟩
    · rw [give_zone hsome'] at hgive
      exact wp_mono (wp_record (g := g)) fun r t ht => appendEnds_of_record hgive rfl ht
  · refine wp_mono (wp_record (g := g)) fun r t ht => appendEnds_of_record
      (v := ⟨s.zoneBitmap.setValue i true, s.env.malloc⟩) ?_ rfl ht
    rw [zoneNeeds, if_neg h, if_neg h12]
    exact give_zone hsome

/-! ## The loop over the chunks -/

/-- Where the loop fails, a block is left, or the position has moved, or a zone has been taken, or it
missed the first zone and did nothing. -/
def Stopped (s : State) (g live left : Nat) (missing : Prop) (t : State × Notes) : Prop :=
  live ≤ t.2.live ∨ t.2.live + 1 = live ∧
    ((t.1.fileTable g).fdPos = (s.fileTable g).fdPos ∧
        ((t.1 = s ∧ s.zoneBitmap.findBlock 1 = none ∧ missing) ∨ t.1.zoneBitmap ≠ s.zoneBitmap) ∨
      ∃ d, 0 < d ∧ d + 512 ≤ 512 * left ∧
        (t.1.fileTable g).fdPos = u32 ((s.fileTable g).fdPos + d))

/-- A loop that fails behind its first chunk has moved the position. -/
theorem Stopped.after {s' : State} {live left : Nat} {missing missing' : Prop} {t : State × Notes}
    (hleft : 0 < left) (hpos : (s'.fileTable g).fdPos = u32 ((s.fileTable g).fdPos + 512))
    (h : Stopped s' g live left missing t) : Stopped s g live (left + 1) missing' t := by
  refine h.imp_right fun ⟨hlive, hd⟩ => ⟨hlive, .inr ?_⟩
  rcases hd with ⟨hsame, -⟩ | ⟨d, hd, hle, hmoved⟩
  · exact ⟨512, by omega, by omega, hsame.trans hpos⟩
  · refine ⟨512 + d, by omega, by omega, ?_⟩
    rw [hmoved, hpos]
    unfold u32
    omega

def ChunksEnd (s : State) (g live : Nat) (zones : Nat → Nat) (plan : WritePlan) (left i : Nat)
    (r : Option Nat) (t : State × Notes) : Prop :=
  match Supply.give (chunkNeeds zones plan left i) (s.view g).supply with
  | some _ => r.isSome ∧ t.2.live = live
  | none => r = none ∧ Stopped s g live left (zones (plan.zoneIdx + i) = 0) t

variable {zones : Nat → Nat} {plan : WritePlan} {count left i : Nat}

theorem turnSize_whole (h : left ≠ 0) : turnSize plan.chunkRest (left = 0) = 512 :=
  if_neg fun hc => h (of_decide_eq_true hc.2)

theorem wp_writeChunks : ∀ {s : State} {k : Notes} {i w : Nat}, (s.view g).Fits → 0 < k.live →
    wp (fun _ => True) (Noted.writeChunks g p buf zones plan count left i w)
      (ChunksEnd s g k.live zones plan left i) (s, k) := by
  induction left with
  | zero =>
    intro s k i w _ _
    exact ⟨rfl, rfl⟩
  | succ left ih =>
    intro s k i w hfit hk
    -- the turn of a chunk and the chunks behind it, from the supply that its zone has left
    have hrest : ∀ {r : State} {m : Notes} {v : Supply} (lba : Nat),
        r.view g = { s.view g with supply := v } → m.live = k.live →
        Supply.give (if zones (plan.zoneIdx + i) = 0 then zoneNeeds (plan.zoneIdx + i) else [])
          (s.view g).supply = some v →
        wp (fun _ => True) (do
            watch (check (w ≤ count) .panic)
            let done ← (if zones (plan.zoneIdx + i) = 0 then Noted.writeZone else Noted.rewriteZone) g
              buf plan.chunkRest lba (left = 0) w
            match done with
            | none => pure none
            | some n => Noted.writeChunks g p buf zones plan count left (i + 1) (w + n))
          (ChunksEnd s g k.live zones plan (left + 1) i) (r, m) := by
      intro s' k' v lba hview hlive hgive
      have hsupply : (s'.view g).supply = v := by rw [hview]
      have hturn : wp (fun _ => True)
          ((if zones (plan.zoneIdx + i) = 0 then Noted.writeZone else Noted.rewriteZone) g buf
            plan.chunkRest lba (left = 0) w)
          (TurnEnds s' g k'.live plan.chunkRest (left = 0)) (s', k') := by
        split
        · exact wp_writeZone
        · exact wp_rewriteZone
      rw [wp_bind, wp_watch, wp_check]
      refine ⟨fun _ => ?_, fun _ => trivial⟩
      rw [wp_bind]
      refine wp_mono hturn fun done t ht => ?_
      rw [TurnEnds, hsupply] at ht
      have hsplit : Supply.give (chunkNeeds zones plan (left + 1) i) (s.view g).supply =
          (Supply.give (partNeeds plan.chunkRest (left = 0)) v).bind
            (Supply.give (chunkNeeds zones plan left (i + 1))) := by
        rw [chunkNeeds, Supply.give_append, Supply.give_append, hgive]
        rfl
      cases hpart : Supply.give (partNeeds plan.chunkRest (left = 0)) v with
      | none =>
        rw [hpart] at ht hsplit
        obtain ⟨rfl, hle⟩ := ht
        rw [wp_pure, ChunksEnd, hsplit]
        exact ⟨rfl, .inl (hlive ▸ hle)⟩
      | some v' =>
        rw [hpart] at ht hsplit
        obtain ⟨rfl, hlive', hview'⟩ := ht
        obtain ⟨s₂, k₂⟩ := t
        have hlen := (give_length hpart).trans (give_length hgive)
        have hfit₂ : (s₂.view g).Fits := by
          rw [View.Fits, hview', hview]
          change (s.view g).dataStart + 8 * v'.zones.mapBytesLength < 2 ^ 32
          rw [hlen]
          exact hfit
        have hlive₂ : k₂.live = k.live := hlive'.trans hlive
        refine wp_mono (ih hfit₂ (hlive₂ ▸ hk)) fun r t ht => ?_
        have hsupply₂ : (s₂.view g).supply = v' := by rw [hview']
        rw [ChunksEnd, hsupply₂, hlive₂] at ht
        rw [ChunksEnd, hsplit]
        change match Supply.give (chunkNeeds zones plan left (i + 1)) v' with
          | some _ => r.isSome ∧ t.2.live = k.live
          | none => r = none ∧ Stopped s g k.live (left + 1) (zones (plan.zoneIdx + i) = 0) t
        cases hc : Supply.give (chunkNeeds zones plan left (i + 1)) v' with
        | some _ =>
          rw [hc] at ht
          exact ht
        | none =>
          rw [hc] at ht
          have hleft : left ≠ 0 := by
            rintro rfl
            cases hc
          have hpos : (s₂.fileTable g).fdPos = u32 ((s.fileTable g).fdPos + 512) := by
            have h := congrArg View.pos hview'
            rw [turnSize_whole hleft, hview] at h
            exact h
          exact ⟨ht.1, ht.2.after (Nat.pos_of_ne_zero hleft) hpos⟩
    rw [Noted.writeChunks, wp_bind, wp_usesZones]
    simp only [wp_ite, wp_bind]
    refine ⟨fun h0 => ?_, fun h0 => ?_⟩
    · refine wp_mono (wp_appendZone (s := s) (k := { k with zoneUses := _ }) hfit hk) fun lba t ht => ?_
      rw [AppendEnds] at ht
      cases hgive : Supply.give (zoneNeeds (plan.zoneIdx + i)) (s.view g).supply with
      | none =>
        rw [hgive] at ht
        obtain ⟨rfl, hstop⟩ := ht
        rw [wp_pure, ChunksEnd, chunkNeeds, if_pos h0, List.append_assoc, Supply.give_append, hgive]
        refine ⟨rfl, hstop.imp_right fun h => ⟨h.1, .inl ⟨h.2.1, ?_⟩⟩⟩
        exact h.2.2.imp_left fun hz => ⟨hz.1, hz.2, h0⟩
      | some v =>
        rw [hgive] at ht
        obtain ⟨hlba, hlive, hview⟩ := ht
        obtain ⟨lba, rfl⟩ := Option.isSome_iff_exists.mp hlba
        have h := hrest lba hview hlive (by rw [if_pos h0, hgive])
        simp only [wp_bind, if_pos h0] at h ⊢
        exact h
    · have h := hrest (r := s) (m := { k with zoneUses := k.zoneUses ++ [↑(plan.zoneIdx + i)] })
        (v := (s.view g).supply) (zones (plan.zoneIdx + i)) rfl rfl (by rw [if_neg h0]; rfl)
      simp only [wp_bind, wp_pure, if_neg h0] at h ⊢
      exact h

/-- A loop that misses its first zone does nothing but free the buffer. -/
theorem wp_writeChunks_missing {E : Stop × Notes → Prop} (h0 : zones (plan.zoneIdx + i) = 0)
    (hnone : s.zoneBitmap.findBlock 1 = none) :
    wp E (Noted.writeChunks g p buf zones plan count (left + 1) i w)
      (fun r t => r = none ∧ t.1 = s ∧ t.2.live = k.live - 1) (s, k) := by
  have htake : takeFreeZone s = .ok (none, s) := by
    rw [takeFreeZone, bind_ok (?_ : zoneBitmapAlloc s = .ok (none, s))]
    · rfl
    · rw [zoneBitmapAlloc, bind_ok (get_apply s), hnone]
      rfl
  rw [Noted.writeChunks, wp_bind, wp_usesZones]
  simp only [if_pos h0, wp_bind, Noted.appendZone, wp_watch, wp_of_ok htake, wp_freed, wp_pure]
  exact ⟨trivial, trivial, trivial⟩

/-- The rest of the first zone is filled before anything else. -/
theorem wp_fillRest (hpos : (s.fileTable g).fdPos < 2 ^ 32)
    (hneed : plan.restSz = 0 → plan.needFilledSz = 0) :
    wp (fun _ => True) (Noted.fillRest g buf zones plan)
      (fun _ t => (plan.restSz = 0 → t.1 = s) ∧ t.2.live = k.live ∧
        t.1.view g = { s.view g with pos := u32 ((s.fileTable g).fdPos + plan.needFilledSz) })
      (s, k) := by
  unfold Noted.fillRest
  rw [wp_ite]
  refine ⟨fun hr => ?_, fun hr => ?_⟩
  · rw [wp_pure, hneed hr, Nat.add_zero, u32_of_lt hpos]
    exact ⟨fun _ => rfl, rfl, rfl⟩
  · simp only [wp_bind, wp_watch, wp_readJunk, wp_usesZones, wp_ideRead, wp_ideWrite, wp_advance]
    exact ⟨fun _ => ⟨fun _ => ⟨fun h => absurd h hr, trivial, view_advanced⟩, fun _ => trivial⟩,
      fun _ => trivial⟩

end Parts

/-! ## The whole call -/

theorem divRoundUp_le (n : Nat) : divRoundUp n 512 ≤ 2 ^ 23 := by
  have h := u32_lt (n + (512 - 1))
  rw [divRoundUp]
  omega

/-- What a plan fills first and what it writes then. -/
theorem writePlan_fills (pos size count : Nat) (zones : Nat → Nat) :
    let plan := writePlan pos size count zones
    (plan.restSz = 0 → plan.needFilledSz = 0) ∧ plan.needFilledSz < 512 ∧ plan.chunkCnt ≤ 2 ^ 23 ∧
      (plan.needFilledSz = 0 → 0 < plan.chunkCnt → plan.restSz = 0) := by
  intro plan
  have hcnt := divRoundUp_le
  simp only [plan, writePlan]
  have hlt : (if pos = size ∧ zones (divRoundUp pos 512) = 0 then size % 512 else pos % 512) < 512 := by
    split <;> omega
  generalize (if pos = size ∧ zones (divRoundUp pos 512) = 0 then size % 512 else pos % 512) = rest at *
  by_cases hr : rest = 0
  · simp only [if_pos hr]
    exact ⟨fun _ => trivial, by omega, hcnt _, fun _ _ => hr⟩
  · simp only [if_neg hr]
    refine ⟨fun h => absurd h hr, by omega, ?_, fun h0 hc => ?_⟩
    · split
      · omega
      · exact hcnt _
    · split at hc <;> omega

section Whole
variable {s t : State} {g p writeLen : Nat} {x : Inode} {buf : Store} {k : Notes}

theorem prepared_kept : Kept s g p (prepared s x) { k with live := 0 } := by
  unfold prepared
  split <;> exact ⟨rfl, rfl, rfl, rfl, rfl, rfl⟩

theorem prepared_view : (prepared s x).view g =
    ⟨(s.fileTable g).fdPos, supplyOf s x, s.sb.sDataStartLba⟩ := by
  unfold supplyOf prepared
  split <;> rfl

/-- Of the calls that get to the zones, those return -1 and leave everything as it was that miss the
zone for their first byte. -/
theorem wp_writeFrom (hfit : s.sb.sDataStartLba + 8 * s.zoneBitmap.mapBytesLength < 2 ^ 32)
    (hpos : (s.fileTable g).fdPos ≤ maxFileSize) :
    wp (fun _ => True) (Noted.writeFrom g p buf (zonesOf s x) x (s.fileTable g).fdPos
        (writeCount (s.fileTable g).fdPos writeLen))
      (fun r u => (r = none → Kept s g p u.1 u.2) ↔
        ((planOf s g x writeLen).needFilledSz = 0 ∧ 0 < (planOf s g x writeLen).chunkCnt ∧
          zonesOf s x (planOf s g x writeLen).zoneIdx = 0 ∧ s.zoneBitmap.findBlock 1 = none) ∨
        Provided s g x writeLen) (prepared s x, ⟨[], [], 1⟩) := by
  have hpos32 : (s.fileTable g).fdPos < 2 ^ 32 := by
    unfold maxFileSize at hpos
    omega
  have hfile : ((prepared s x).fileTable g).fdPos = (s.fileTable g).fdPos :=
    congrArg View.pos (prepared_view (x := x))
  obtain ⟨hfill, hneed, hcnt, hwhole⟩ := writePlan_fills (s.fileTable g).fdPos x.iSize
    (writeCount (s.fileTable g).fdPos writeLen) (zonesOf s x)
  rw [Provided]
  unfold planOf Noted.writeFrom
  generalize hplan : writePlan (s.fileTable g).fdPos x.iSize
    (writeCount (s.fileTable g).fdPos writeLen) (zonesOf s x) = plan at *
  rw [wp_bind, wp_usesZones, wp_bind]
  refine wp_mono (wp_fillRest (hfile ▸ hpos32) hfill) fun _ u hu => ?_
  obtain ⟨s₁, k₁⟩ := u
  obtain ⟨hsame, hlive, hview⟩ := hu
  have hlive : k₁.live = 1 := hlive
  have hsupply : (s₁.view g).supply = supplyOf s x := by rw [hview, prepared_view]
  have hpos₁ : (s₁.fileTable g).fdPos = u32 ((s.fileTable g).fdPos + plan.needFilledSz) := by
    rw [← hfile]
    exact congrArg View.pos hview
  have hfit₁ : (s₁.view g).Fits := by
    rw [View.Fits, hsupply, hview, prepared_view]
    exact hfit
  have hzones₁ : s₁.zoneBitmap = s.zoneBitmap := congrArg Supply.zones hsupply
  have hmiss : wp (fun _ => True) (Noted.writeChunks g p buf (zonesOf s x) plan
      (writeCount (s.fileTable g).fdPos writeLen) plan.chunkCnt 0 plan.needFilledSz)
      (fun r u => 0 < plan.chunkCnt ∧ zonesOf s x plan.zoneIdx = 0 ∧ s.zoneBitmap.findBlock 1 = none →
        r = none ∧ u.1 = s₁ ∧ u.2.live = 0) (s₁, k₁) := by
    by_cases hc : 0 < plan.chunkCnt ∧ zonesOf s x plan.zoneIdx = 0 ∧
        s.zoneBitmap.findBlock 1 = none
    · obtain ⟨n, hn⟩ : ∃ n, plan.chunkCnt = n + 1 := ⟨plan.chunkCnt - 1, by omega⟩
      rw [hn]
      refine wp_mono (wp_writeChunks_missing hc.2.1 (hzones₁ ▸ hc.2.2)) fun r u h _ => ?_
      exact ⟨h.1, h.2.1, by rw [h.2.2, hlive]⟩
    · exact wp_mono (wp_writeChunks hfit₁ (hlive ▸ Nat.one_pos)) fun _ _ _ h => absurd h hc
  rw [wp_bind]
  refine wp_mono (wp_and (wp_writeChunks hfit₁ (hlive ▸ Nat.one_pos)) hmiss) fun r u hu => ?_
  obtain ⟨hend, hm⟩ := hu
  rw [ChunksEnd, hsupply] at hend
  cases hgive : Supply.give (chunkNeeds (zonesOf s x) plan plan.chunkCnt 0) (supplyOf s x) with
  | some v =>
    rw [hgive] at hend
    obtain ⟨n, rfl⟩ := Option.isSome_iff_exists.mp hend.1
    have hsome : ∀ (written : Nat) (u' : State × Notes), (some (u32 written) = none → Kept s g p u'.1 u'.2) ↔
        (plan.needFilledSz = 0 ∧ 0 < plan.chunkCnt ∧ zonesOf s x plan.zoneIdx = 0 ∧
          s.zoneBitmap.findBlock 1 = none) ∨ (some v).isSome = true := fun _ _ =>
      iff_of_true (by simp) (.inr rfl)
    simp only [wp_bind]
    exact wp_always fun _ _ => wp_always fun _ _ => wp_always fun _ _ => wp_always fun _ _ =>
      wp_always fun _ u' => hsome n u'
  | none =>
    rw [hgive] at hend
    obtain ⟨rfl, hstop⟩ := hend
    rw [wp_pure]
    have hchunks : 0 < plan.chunkCnt := by
      by_contra h0
      rw [Nat.eq_zero_of_not_pos h0] at hgive
      cases hgive
    refine Iff.trans ⟨fun h => ?_, fun h _ => ?_⟩ (or_iff_left (by simp)).symm
    · have hk := h rfl
      have hpos := hk.pos
      rcases hstop with hle | ⟨-, ⟨hp, hz⟩ | ⟨d, hd, hdle, hp⟩⟩
      · have hblocks := hk.blocks
        omega
      · have h0 : plan.needFilledSz = 0 := by
          rw [hp, hpos₁] at hpos
          unfold u32 at hpos
          omega
        rcases hz with ⟨-, hnone, hzero⟩ | hne
        · exact ⟨h0, hchunks, hzero, hzones₁ ▸ hnone⟩
        · exact absurd (hk.zones.trans hzones₁.symm) hne
      · rw [hp, hpos₁] at hpos
        unfold u32 at hpos
        omega
    · obtain ⟨h0, hc⟩ := h
      obtain ⟨-, hu, hu0⟩ := hm hc
      have hkept : Kept s g p (prepared s x) { u.2 with live := 0 } := prepared_kept
      rw [hu, show s₁ = prepared s x from hsame (hwhole h0 hc.1)]
      exact ⟨hkept.pos, hkept.inode, hkept.zones, hkept.imap, hkept.disk, hu0⟩

/-- A write that returns -1 leaves everything as it was, with no block allocated, exactly where it
fails before it has done anything. -/
theorem failed_write_kept_iff (ho : OpenAt s g p x)
    (hfit : s.sb.sDataStartLba + 8 * s.zoneBitmap.mapBytesLength < 2 ^ 32) {r : Option Nat}
    (hrun : Noted.fileWrite g buf writeLen (s, .start) = .ok (r, (t, k))) :
    (r = none → Kept s g p t k) ↔ FailsEarly s g x writeLen ∨ Provided s g x writeLen := by
  have hkept : ∀ {s' : State}, Kept s' g p s' .start := ⟨rfl, rfl, rfl, rfl, rfl, rfl⟩
  have hfile : (watch (fileAt g) : W File) (s, .start) = .ok (s.fileTable g, (s, .start)) := rfl
  by_cases hpos : maxFileSize < (s.fileTable g).fdPos
  · have hrefused : Noted.fileWrite g buf writeLen (s, .start) = .ok (none, (s, .start)) := by
      rw [Noted.fileWrite, bind_ok hfile, if_pos (by omega)]
      rfl
    cases hrefused.symm.trans hrun
    exact iff_of_true (fun _ => hkept) (.inl (.inl hpos))
  rw [Nat.not_lt] at hpos
  cases hm : s.env.malloc 0 with
  | false =>
    have hnone : Noted.fileWrite g buf writeLen (s, .start) = .ok (none, (s.nextMalloc, .start)) := by
      rw [Noted.fileWrite, bind_ok hfile, if_neg (by omega), bind_ok (allocate_run (by omega)), hm]
      rfl
    cases hnone.symm.trans hrun
    exact iff_of_true (fun _ => ⟨rfl, rfl, rfl, rfl, rfl, rfl⟩) (.inl (.inr (.inl hm)))
  | true =>
    have ht : x.iZones 12 ≠ 0 → s.env.malloc 1 = true := by
      intro h12
      by_contra ht
      rw [fileWrite_noTable ho hpos hm h12 (by simpa using ht)] at hrun
      cases hrun
    have hx : x.iZones 12 ≤ maxLba := by
      by_contra hx
      rw [fileWrite_badTable ho hpos hm (by omega) (ht (by omega))] at hrun
      cases hrun
    rw [fileWrite_eq_from ho hx hpos hm ht] at hrun
    have hiff := wp_ok (wp_writeFrom hfit hpos) hrun
    rw [FailsEarly, hm]
    simpa [Nat.not_lt.mpr hpos] using hiff

/-- Slot 3 is an empty file, and there is no zone. -/
def emptyFile : State :=
  { State.boot with
    inodes := Function.update (fun _ => none) 1 (some (regularInode 1))
    fileTable := Function.update State.boot.fileTable 3
      { fdPos := 0, fdFlag := oRdwr, fdInode := some 1 } }

theorem failed_write_kept_empty : ∃ t k,
    Noted.fileWrite 3 (fun _ => 0) 1 (emptyFile, .start) = .ok (none, (t, k)) ∧
      Kept emptyFile 3 1 t k := by
  have hrun : ∃ t k, Noted.fileWrite 3 (fun _ => 0) 1 (emptyFile, .start) = .ok (none, (t, k)) :=
    ⟨_, _, rfl⟩
  obtain ⟨t, k, hrun⟩ := hrun
  have hearly : FailsEarly emptyFile 3 (regularInode 1) 1 := .inr (.inr (by decide +kernel))
  exact ⟨t, k, hrun, (failed_write_kept_iff ⟨rfl, rfl⟩ (by decide) hrun).mpr (.inl hearly) rfl⟩

/-- The rest of the first zone is filled before there is no second one. -/
theorem failed_write_moves : ∃ t k,
    Noted.fileWrite 3 (fun _ => 0) 600 (oneByte, .start) = .ok (none, (t, k)) ∧
      (t.fileTable 3).fdPos = 512 ∧ ¬ Kept oneByte 3 1 t k := by
  have hrun : ∃ t k, Noted.fileWrite 3 (fun _ => 0) 600 (oneByte, .start) = .ok (none, (t, k)) ∧
      (t.fileTable 3).fdPos = 512 := ⟨_, _, rfl, rfl⟩
  obtain ⟨t, k, hrun, hpos⟩ := hrun
  refine ⟨t, k, hrun, hpos, fun h => ?_⟩
  have hsame : 512 = 1 := hpos.symm.trans h.pos
  cases hsame

end Whole

end Frog.Fs
