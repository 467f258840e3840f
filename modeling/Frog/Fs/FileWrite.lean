import Frog.Fs.Contents
import Frog.Lib.Watch

/-!
# Writing a file

`file_write` with notes on the indices that it uses and on the heap blocks that it has not freed yet.
`all_zones` has 140 elements and the indirect table 128; the loops that fill them in run over just
these.
-/

namespace Frog.Fs

set_option autoImplicit false
open Bytes Prog

/-! ## Notes -/

/-- `live` counts the blocks of the call. -/
structure Notes where
  zoneUses : List Int
  tableUses : List Int
  live : Nat

def Notes.start : Notes := ⟨[], [], 0⟩

abbrev W (α : Type) : Type := Watched Stop State Notes α

def usesZones (is : List Int) : W Unit := note fun k => { k with zoneUses := k.zoneUses ++ is }

def usesTable (i : Int) : W Unit := note fun k => { k with tableUses := k.tableUses ++ [i] }

def freed : W Unit := note fun k => { k with live := k.live - 1 }

def allocate (size : Nat) : W Bool := do
  let ok ← watch (sysMalloc size)
  note fun k => if ok then { k with live := k.live + 1 } else k
  pure ok

def mustAllocate (size : Nat) : W Unit := do
  let ok ← allocate size
  watch (check (ok = true) .fault)

/-! ## The calls -/

namespace Noted

def writeZone (g : Nat) (buf : Store) (chunkRest lba : Nat) (isLastTurn : Bool) (w : Nat) :
    W (Option Nat) := do
  if 0 < chunkRest ∧ isLastTurn = true then
    if ← allocate 512 then
      watch (ideWrite lba (patch (fun _ => 0) 0 chunkRest fun i => buf (w + i)) 1)
      watch (advance g chunkRest)
      freed
      pure (some chunkRest)
    else pure none
  else
    watch (ideWrite lba (fun i => buf (w + i)) 1)
    watch (advance g 512)
    pure (some 512)

def rewriteZone (g : Nat) (buf : Store) (chunkRest lba : Nat) (isLastTurn : Bool) (w : Nat) :
    W (Option Nat) := do
  if 0 < chunkRest ∧ isLastTurn = true then
    if ← allocate 512 then
      let old ← watch (ideRead lba 1)
      watch (ideWrite lba (patch old 0 chunkRest fun i => buf (w + i)) 1)
      watch (advance g chunkRest)
      freed
      pure (some chunkRest)
    else pure none
  else
    let junk ← watch readJunk
    watch (ideWrite lba junk 1)
    watch (advance g 512)
    pure (some 512)

def recordIndirect (p idx lba : Nat) : W Bool := do
  if ← allocate 512 then
    let x ← watch (inodeAt p)
    let table ← watch (ideRead (x.iZones 12) 1)
    usesTable (idx - 12)
    watch (check (idx - 12 < 128) .fault)
    watch (ideWrite (x.iZones 12) (patch table (4 * (idx - 12)) 4 (leByte lba)) 1)
    freed
    pure true
  else pure false

/-- The buffer is freed where no zone is left, and not where there is no memory for the table. -/
def appendZone (p idx : Nat) : W (Option Nat) := do
  match ← watch takeFreeZone with
  | none =>
    freed
    pure none
  | some lba =>
    if idx < 12 then
      let x ← watch (inodeAt p)
      watch (setInode p (x.setZone idx lba))
      pure (some lba)
    else if idx = 12 then
      let x ← watch (inodeAt p)
      watch (setInode p (x.setZone 12 lba))
      match ← watch takeFreeZone with
      | none =>
        freed
        pure none
      | some lba =>
        if ← recordIndirect p idx lba then pure (some lba) else pure none
    else if ← recordIndirect p idx lba then pure (some lba) else pure none

def writeChunks (g p : Nat) (buf : Store) (zones : Nat → Nat) (plan : WritePlan) (count : Nat) :
    Nat → Nat → Nat → W (Option Nat)
  | 0, _, w => pure (some w)
  | left + 1, i, w => do
    let idx := plan.zoneIdx + i
    let old := zones idx
    usesZones [idx]
    let lba ← if old = 0 then appendZone p idx else pure (some old)
    match lba with
    | none => pure none
    | some lba =>
      watch (check (w ≤ count) .panic)
      let done ← (if old = 0 then writeZone else rewriteZone) g buf plan.chunkRest lba (left = 0) w
      match done with
      | none => pure none
      | some n => writeChunks g p buf zones plan count left (i + 1) (w + n)

/-- The indices that the search for the first zone uses, up to the one at which it stops. -/
def planUses (fdPos iSize : Nat) (zones : Nat → Nat) : List Int :=
  let zoneIdx := divRoundUp fdPos 512
  if fdPos = iSize then
    (zoneIdx : Int) :: if zones zoneIdx = 0 then (List.range (firstZero zones + 1)).map (↑) else []
  else []

def fillRest (g : Nat) (buf : Store) (zones : Nat → Nat) (plan : WritePlan) : W Unit :=
  if plan.restSz = 0 then pure ()
  else do
    let junk ← watch readJunk
    usesZones [plan.zoneIdx - 1]
    let lba := if plan.zoneIdx = 0 then le32 junk 0 else zones (plan.zoneIdx - 1)
    let ioBuf ← watch (ideRead lba 1)
    watch (ideWrite lba (patch ioBuf plan.restSz plan.needFilledSz buf) 1)
    watch (advance g plan.needFilledSz)

/-- The call once `all_zones` is filled in. -/
def writeFrom (g p : Nat) (buf : Store) (zones : Nat → Nat) (x : Inode) (fdPos count : Nat) :
    W (Option Nat) := do
  let plan := writePlan fdPos x.iSize count zones
  usesZones (planUses fdPos x.iSize zones)
  fillRest g buf zones plan
  match ← writeChunks g p buf zones plan count plan.chunkCnt 0 plan.needFilledSz with
  | none => pure none
  | some written =>
    let f ← watch (fileAt g)
    let x ← watch (inodeAt p)
    let x := x.setSize (max f.fdPos x.iSize)
    watch (setInode p x)
    watch (flushInode x)
    freed
    pure (some (u32 written))

def fileWrite (g : Nat) (buf : Store) (writeLen : Nat) : W (Option Nat) := do
  let f ← watch (fileAt g)
  if maxFileSize + 1 ≤ f.fdPos then pure none
  else
    let count := writeCount f.fdPos writeLen
    if !(← allocate 1024) then pure none
    else
      let junk ← watch readJunk
      let p ← watch (need f.fdInode .fault)
      let x ← watch (inodeAt p)
      let table ← if x.iZones 12 = 0 then pure fun _ => 0 else do
        mustAllocate 512
        let table ← watch (ideRead (x.iZones 12) 1)
        freed
        pure table
      writeFrom g p buf (fileZones x table junk) x f.fdPos count

/-! ## The notes have no influence -/

theorem allocate_watches (size : Nat) : Watches (allocate size) (sysMalloc size) := by
  intro s k
  unfold allocate
  obtain ⟨k', hk⟩ := Watches.watch (κ := Notes) (sysMalloc size) s k
  rw [bind_apply, hk]
  cases sysMalloc size s with
  | error e => exact ⟨k', rfl⟩
  | ok r => exact ⟨if r.1 then { k' with live := k'.live + 1 } else k', rfl⟩

theorem mustAllocate_watches (size : Nat) : Watches (mustAllocate size) (mustMalloc size) :=
  (allocate_watches size).bind fun _ => Watches.watch _

theorem writeZone_watches (g : Nat) (buf : Store) (chunkRest lba : Nat) (isLastTurn : Bool)
    (w : Nat) : Watches (writeZone g buf chunkRest lba isLastTurn w)
      (Fs.writeZone g buf chunkRest lba isLastTurn w) := by
  refine .ite (fun _ => (allocate_watches 512).bind fun ok => .ite (fun _ => ?_) fun _ => .pure none)
    fun _ => ?_
  · exact (Watches.watch _).bind fun _ => (Watches.watch _).bind fun _ => .note_bind (.pure _)
  · exact (Watches.watch _).bind fun _ => (Watches.watch _).bind fun _ => .pure _

theorem rewriteZone_watches (g : Nat) (buf : Store) (chunkRest lba : Nat) (isLastTurn : Bool)
    (w : Nat) : Watches (rewriteZone g buf chunkRest lba isLastTurn w)
      (Fs.rewriteZone g buf chunkRest lba isLastTurn w) := by
  refine .ite (fun _ => (allocate_watches 512).bind fun ok => .ite (fun _ => ?_) fun _ => .pure none)
    fun _ => ?_
  · exact (Watches.watch _).bind fun _ => (Watches.watch _).bind fun _ =>
      (Watches.watch _).bind fun _ => .note_bind (.pure _)
  · exact (Watches.watch _).bind fun _ => (Watches.watch _).bind fun _ =>
      (Watches.watch _).bind fun _ => .pure _

theorem recordIndirect_watches (p idx lba : Nat) :
    Watches (recordIndirect p idx lba) (Fs.recordIndirect p idx lba) := by
  refine (allocate_watches 512).bind fun ok => .ite (fun _ => ?_) fun _ => .pure _
  exact (Watches.watch _).bind fun _ => (Watches.watch _).bind fun _ =>
    .note_bind ((Watches.watch _).bind fun _ => (Watches.watch _).bind fun _ => .note_bind (.pure _))

theorem appendZone_watches (p idx : Nat) : Watches (appendZone p idx) (Fs.appendZone p idx) := by
  have hrecord : ∀ lba, Watches
      (do if ← recordIndirect p idx lba then pure (some lba) else pure none)
      (do if ← Fs.recordIndirect p idx lba then pure (some lba) else pure none) := fun lba =>
    (recordIndirect_watches p idx lba).bind fun _ => .ite (fun _ => .pure _) fun _ => .pure _
  refine (Watches.watch _).bind fun r => ?_
  cases r with
  | none => exact .note_bind (.pure none)
  | some lba =>
    refine .ite (fun _ => ?_) fun _ => .ite (fun _ => ?_) fun _ => hrecord lba
    · exact (Watches.watch _).bind fun _ => (Watches.watch _).bind fun _ => .pure _
    · refine (Watches.watch _).bind fun _ => (Watches.watch _).bind fun _ =>
        (Watches.watch _).bind fun r => ?_
      cases r with
      | none => exact .note_bind (.pure none)
      | some lba => exact hrecord lba

theorem writeChunks_watches (g p : Nat) (buf : Store) (zones : Nat → Nat) (plan : WritePlan)
    (count left : Nat) : ∀ i w, Watches (writeChunks g p buf zones plan count left i w)
      (Fs.writeChunks g p buf zones plan count left i w) := by
  induction left with
  | zero => exact fun _ w => .pure (some w)
  | succ left ih =>
    intro i w
    have hrest : ∀ lba : Option Nat, Watches
        (match lba with
        | none => pure none
        | some lba => do
          watch (check (w ≤ count) .panic)
          let done ← (if zones (plan.zoneIdx + i) = 0 then writeZone else rewriteZone) g buf
            plan.chunkRest lba (left = 0) w
          match done with
          | none => pure none
          | some n => writeChunks g p buf zones plan count left (i + 1) (w + n))
        (match lba with
        | none => pure none
        | some lba => do
          check (w ≤ count) .panic
          let done ← (if zones (plan.zoneIdx + i) = 0 then Fs.writeZone else Fs.rewriteZone) g buf
            plan.chunkRest lba (left = 0) w
          match done with
          | none => pure none
          | some n => Fs.writeChunks g p buf zones plan count left (i + 1) (w + n)) := by
      intro lba
      cases lba with
      | none => exact .pure none
      | some lba =>
        refine (Watches.watch _).bind fun _ => Watches.bind ?_ fun done => ?_
        · split
          · exact writeZone_watches g buf _ lba _ w
          · exact rewriteZone_watches g buf _ lba _ w
        · cases done with
          | none => exact .pure none
          | some n => exact ih (i + 1) (w + n)
    refine .note_bind (.ite (fun _ => (appendZone_watches p _).bind hrest) fun _ => ?_)
    exact (Watches.pure _).bind hrest

theorem fillRest_watches (g : Nat) (buf : Store) (zones : Nat → Nat) (plan : WritePlan) :
    Watches (fillRest g buf zones plan) (Fs.fillRest g buf zones plan) := by
  refine .ite (fun _ => .pure ()) fun _ => ?_
  exact (Watches.watch _).bind fun _ => .note_bind ((Watches.watch _).bind fun _ =>
    (Watches.watch _).bind fun _ => Watches.watch _)

theorem writeFrom_watches (g p : Nat) (buf : Store) (zones : Nat → Nat) (x : Inode)
    (fdPos count : Nat) : Watches (writeFrom g p buf zones x fdPos count) (do
      let plan := writePlan fdPos x.iSize count zones
      Fs.fillRest g buf zones plan
      match ← Fs.writeChunks g p buf zones plan count plan.chunkCnt 0 plan.needFilledSz with
      | none => pure none
      | some written =>
        let f ← fileAt g
        let x ← inodeAt p
        let x := x.setSize (max f.fdPos x.iSize)
        setInode p x
        flushInode x
        pure (some (u32 written))) := by
  refine .note_bind ((fillRest_watches g buf zones _).bind fun _ =>
    (writeChunks_watches g p buf zones _ _ _ 0 _).bind fun r => ?_)
  cases r with
  | none => exact .pure none
  | some written =>
    exact (Watches.watch _).bind fun _ => (Watches.watch _).bind fun _ =>
      (Watches.watch _).bind fun _ => (Watches.watch _).bind fun _ => .note_bind (.pure _)

/-- Without its notes the call is `file_write`. -/
theorem fileWrite_watches (g : Nat) (buf : Store) (writeLen : Nat) :
    Watches (fileWrite g buf writeLen) (Fs.fileWrite g buf writeLen) := by
  refine (Watches.watch _).bind fun f => .ite (fun _ => .pure none) fun _ =>
    (allocate_watches 1024).bind fun ok => .ite (fun _ => .pure none) fun _ =>
    (Watches.watch _).bind fun junk => (Watches.watch _).bind fun p => (Watches.watch _).bind fun x =>
    .ite (fun _ => (Watches.pure _).bind fun table => ?_) fun _ => (mustAllocate_watches 512).bind
      fun _ => (Watches.watch _).bind fun table => .note_bind ?_
  · exact writeFrom_watches g p buf _ x f.fdPos _
  · exact writeFrom_watches g p buf _ x f.fdPos _

/-! ## The start of a call -/

section Start
variable {s : State} {k : Notes} {g p writeLen : Nat} {x : Inode} {buf : Store}

theorem allocate_run {size : Nat} (h : 0 < size) : allocate size (s, k) =
    .ok (s.env.malloc 0,
      (s.nextMalloc, if s.env.malloc 0 then { k with live := k.live + 1 } else k)) := by
  have hm : sysMalloc size s = .ok (s.env.malloc 0, s.nextMalloc) := if_neg (Nat.ne_of_gt h)
  have hw : (watch (sysMalloc size) : W Bool) (s, k) = .ok (s.env.malloc 0, (s.nextMalloc, k)) := by
    unfold watch
    rw [hm]
  rw [allocate, bind_ok hw]
  rfl

/-- The zones that a call sees. -/
def zonesOf (s : State) (x : Inode) : Nat → Nat := fileZones x (tableOf s.disk x) (s.env.junk 0)

/-- The state once `all_zones` is filled in. -/
def prepared (s : State) (x : Inode) : State :=
  if x.iZones 12 = 0 then s.nextMalloc.nextJunk else s.nextMalloc.nextJunk.nextMalloc

/-- With memory for its buffer a call that is not refused goes on to the table. -/
theorem fileWrite_opened (ho : OpenAt s g p x) (hpos : (s.fileTable g).fdPos ≤ maxFileSize)
    (hm : s.env.malloc 0 = true) : fileWrite g buf writeLen (s, .start) = (do
      let table ← if x.iZones 12 = 0 then pure fun _ => 0 else do
        mustAllocate 512
        let table ← watch (ideRead (x.iZones 12) 1)
        freed
        pure table
      writeFrom g p buf (fileZones x table (s.env.junk 0)) x (s.fileTable g).fdPos
        (writeCount (s.fileTable g).fdPos writeLen) : W (Option Nat))
      (s.nextMalloc.nextJunk, ⟨[], [], 1⟩) := by
  have hfile : (watch (fileAt g) : W File) (s, .start) = .ok (s.fileTable g, (s, .start)) := rfl
  have hbuf : allocate 1024 (s, .start) = .ok (true, (s.nextMalloc, ⟨[], [], 1⟩)) := by
    rw [allocate_run (by omega), hm]
    rfl
  have hjunk : (watch readJunk : W Store) (s.nextMalloc, ⟨[], [], 1⟩) =
      .ok (s.env.junk 0, (s.nextMalloc.nextJunk, ⟨[], [], 1⟩)) := rfl
  have hp : (watch (need (s.fileTable g).fdInode Stop.fault) : W Nat)
      (s.nextMalloc.nextJunk, ⟨[], [], 1⟩) = .ok (p, (s.nextMalloc.nextJunk, ⟨[], [], 1⟩)) := by
    rw [ho.slot]
    rfl
  have hinode : (watch (inodeAt p) : W Inode) (s.nextMalloc.nextJunk, ⟨[], [], 1⟩) =
      .ok (x, (s.nextMalloc.nextJunk, ⟨[], [], 1⟩)) := by
    have hat : inodeAt p s.nextMalloc.nextJunk = .ok (x, s.nextMalloc.nextJunk) := by
      rw [inodeAt, bind_ok (get_apply _)]
      change need (s.inodes p) Stop.fault _ = _
      rw [ho.inode]
      rfl
    unfold watch
    rw [hat]
  rw [fileWrite, bind_ok hfile, if_neg (by omega), bind_ok hbuf]
  simp only [Bool.not_true, Bool.false_eq_true, if_false]
  rw [bind_ok hjunk, bind_ok hp, bind_ok hinode]

theorem mustAllocate_run (ht : s.env.malloc 1 = true) :
    mustAllocate 512 (s.nextMalloc.nextJunk, ⟨[], [], 1⟩) =
      .ok ((), (s.nextMalloc.nextJunk.nextMalloc, ⟨[], [], 2⟩)) := by
  have hmal : s.nextMalloc.nextJunk.env.malloc 0 = true := ht
  rw [mustAllocate, bind_ok (allocate_run (by omega)), hmal]
  rfl

/-- With memory for the table, too, it gets to the zones. -/
theorem fileWrite_eq_from (ho : OpenAt s g p x) (hx : x.iZones 12 ≤ maxLba)
    (hpos : (s.fileTable g).fdPos ≤ maxFileSize) (hm : s.env.malloc 0 = true)
    (ht : x.iZones 12 ≠ 0 → s.env.malloc 1 = true) :
    fileWrite g buf writeLen (s, .start) = writeFrom g p buf (zonesOf s x) x (s.fileTable g).fdPos
      (writeCount (s.fileTable g).fdPos writeLen) (prepared s x, ⟨[], [], 1⟩) := by
  rw [fileWrite_opened ho hpos hm]
  by_cases h12 : x.iZones 12 = 0
  · rw [if_pos h12, prepared, if_pos h12, zonesOf, tableOf, if_pos h12]
    rfl
  · rw [if_neg h12, prepared, if_neg h12, zonesOf, tableOf, if_neg h12]
    have hread : (watch (ideRead (x.iZones 12) 1) : W Store)
        (s.nextMalloc.nextJunk.nextMalloc, ⟨[], [], 2⟩) =
          .ok (sectors s.disk (x.iZones 12) 1, (s.nextMalloc.nextJunk.nextMalloc, ⟨[], [], 2⟩)) := by
      have hat : ideRead (x.iZones 12) 1 s.nextMalloc.nextJunk.nextMalloc =
          .ok (sectors s.disk (x.iZones 12) 1, s.nextMalloc.nextJunk.nextMalloc) := by
        have hlba : 0 < 1 ∧ x.iZones 12 + 1 ≤ maxLba + 1 := by omega
        rw [ideRead, check, if_pos hlba]
        rfl
      unfold watch
      rw [hat]
    rw [bind_ok (mustAllocate_run (ht h12)), bind_ok hread]
    rfl

/-- Without it the null pointer is used. -/
theorem fileWrite_noTable (ho : OpenAt s g p x) (hpos : (s.fileTable g).fdPos ≤ maxFileSize)
    (hm : s.env.malloc 0 = true) (h12 : x.iZones 12 ≠ 0) (ht : s.env.malloc 1 = false) :
    fileWrite g buf writeLen (s, .start) = .error (.fault, ⟨[], [], 1⟩) := by
  have hmust : mustAllocate 512 (s.nextMalloc.nextJunk, ⟨[], [], 1⟩) =
      .error (.fault, ⟨[], [], 1⟩) := by
    have hmal : s.nextMalloc.nextJunk.env.malloc 0 = false := ht
    rw [mustAllocate, bind_ok (allocate_run (by omega)), hmal]
    rfl
  rw [fileWrite_opened ho hpos hm, if_neg h12]
  exact bind_error hmust

/-- A table behind the end of the disk is not read. -/
theorem fileWrite_badTable (ho : OpenAt s g p x) (hpos : (s.fileTable g).fdPos ≤ maxFileSize)
    (hm : s.env.malloc 0 = true) (hx : maxLba < x.iZones 12) (ht : s.env.malloc 1 = true) :
    fileWrite g buf writeLen (s, .start) = .error (.panic, ⟨[], [], 2⟩) := by
  have h12 : x.iZones 12 ≠ 0 := by omega
  have hread : (watch (ideRead (x.iZones 12) 1) : W Store)
      (s.nextMalloc.nextJunk.nextMalloc, ⟨[], [], 2⟩) = .error (.panic, ⟨[], [], 2⟩) := by
    have hat : ideRead (x.iZones 12) 1 s.nextMalloc.nextJunk.nextMalloc = .error .panic := by
      have hlba : ¬ (0 < 1 ∧ x.iZones 12 + 1 ≤ maxLba + 1) := by omega
      rw [ideRead, check, if_neg hlba]
      rfl
    unfold watch
    rw [hat]
  rw [fileWrite_opened ho hpos hm, if_neg h12, bind_ok (mustAllocate_run ht)]
  exact bind_error hread

end Start

end Noted

/-! ## A file of one byte -/

def oneByteInode : Inode :=
  { (regularInode 1).setZone 0 5000 with iSize := 1, iCount := 1 }

/-- Slot 3 is at the end of the file. -/
def oneByte : State :=
  { State.boot with
    inodes := Function.update (fun _ => none) 1 (some oneByteInode)
    fileTable := Function.update State.boot.fileTable 3
      { fdPos := 1, fdFlag := oRdwr, fdInode := some 1 } }

theorem oneByte_open : OpenAt oneByte 3 1 oneByteInode := ⟨rfl, rfl⟩

theorem oneByte_ok : FileOk oneByte.disk oneByteInode := by
  refine ⟨by decide, fun k hk => ?_, by decide⟩
  have hk0 : k = 0 := by
    have hsize : oneByteInode.iSize = 1 := rfl
    omega
  subst hk0
  decide

end Frog.Fs
