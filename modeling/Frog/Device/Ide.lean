import Frog.Lib.Bytes
import Frog.Lib.Runs
import Mathlib.Logic.Function.Basic

/-!
# The sectors of a channel

`ide_read` and `ide_write` of `core/device/ide.c`, one port access at a time, with the other
threads and the interrupt in between. Both disks of a channel share its registers. The drive is the
one that `core/include/device/ide.h` has in its tables: it takes a command while it is idle, answers
with an interrupt and takes or gives 256 words through the data register. `lock_fetch` and
`lock_release` are single steps here.
-/

namespace Frog.Ide

set_option autoImplicit false
open Bytes

abbrev Lba := BitVec 32
abbrev Tid := Nat

def maxLba : Lba := 163839

def ATA_STATR_BSY : Byte := 0x80
def ATA_STATR_DRQ : Byte := 0x08
def BIT_DEV_MBS : Byte := 0xa0
def BIT_DEV_LBA : Byte := 0x40
def BIT_DEV_DEV : Byte := 0x10
def CMD_READ_SECTOR : Byte := 0x20
def CMD_WRITE_SECTOR : Byte := 0x30

/-! ## The drive -/

/-- The registers that the driver writes, but for that of the data. -/
inductive Reg
  | sectCnt | lbaL | lbaM | lbaH | dev | cmd
  deriving DecidableEq

/-- What the drive does. `slave` tells the two disks apart. -/
inductive Phase
  | idle
  | reading (slave : Bool) (lba : Nat)
  | sending (src : Store) (i : Nat)
  | preparing (slave : Bool) (lba : Nat)
  | taking (slave : Bool) (lba : Nat) (got : Store) (i : Nat)
  | storing (slave : Bool) (lba : Nat) (got : Store)
  /-- After an access that `ide.h` says nothing about. -/
  | unknown

/-- The bytes of the disks. -/
abbrev Media := Bool → Store

structure Drive where
  sectCnt : Byte
  lbaL : Byte
  lbaM : Byte
  lbaH : Byte
  dev : Byte
  phase : Phase
  media : Media

def Phase.Busy : Phase → Prop
  | .reading _ _ | .preparing _ _ | .storing _ _ _ => True
  | _ => False

def Phase.Transfers : Phase → Prop
  | .sending _ _ | .taking _ _ _ _ => True
  | _ => False

instance : DecidablePred Phase.Busy
  | .reading _ _ | .preparing _ _ | .storing _ _ _ => isTrue trivial
  | .idle | .sending _ _ | .taking _ _ _ _ | .unknown => isFalse id

instance : DecidablePred Phase.Transfers
  | .sending _ _ | .taking _ _ _ _ => isTrue trivial
  | .idle | .reading _ _ | .preparing _ _ | .storing _ _ _ | .unknown => isFalse id

/-- A status that the drive may show. The other bits are open. -/
def Phase.Shows (p : Phase) (status : Byte) : Prop :=
  (status &&& ATA_STATR_BSY ≠ 0 ↔ p.Busy) ∧ (¬ p.Busy → (status &&& ATA_STATR_DRQ ≠ 0 ↔ p.Transfers))

instance (p : Phase) (status : Byte) : Decidable (p.Shows status) :=
  inferInstanceAs (Decidable (_ ∧ _))

namespace Drive

def slave (d : Drive) : Bool := d.dev &&& BIT_DEV_DEV != 0

/-- The 28 bits of the sector number. -/
def lba (d : Drive) : Nat :=
  d.lbaL.toNat + 2 ^ 8 * d.lbaM.toNat + 2 ^ 16 * d.lbaH.toNat + 2 ^ 24 * (d.dev &&& 0x0f).toNat

def command (d : Drive) (b : Byte) : Phase :=
  if d.sectCnt = 1 ∧ d.dev &&& BIT_DEV_LBA ≠ 0 then
    if b = CMD_READ_SECTOR then .reading d.slave d.lba
    else if b = CMD_WRITE_SECTOR then .preparing d.slave d.lba
    else .unknown
  else .unknown

def outb (d : Drive) (r : Reg) (b : Byte) : Drive :=
  match d.phase, r with
  | .idle, .sectCnt => { d with sectCnt := b }
  | .idle, .lbaL => { d with lbaL := b }
  | .idle, .lbaM => { d with lbaM := b }
  | .idle, .lbaH => { d with lbaH := b }
  | .idle, .dev => { d with dev := b }
  | .idle, .cmd => { d with phase := d.command b }
  | _, _ => { d with phase := .unknown }

/-- A word from the data register, least significant byte first. -/
def insw (d : Drive) : Byte × Byte × Drive :=
  match d.phase with
  | .sending src i =>
    (src (2 * i), src (2 * i + 1), { d with phase := if i = 255 then .idle else .sending src (i + 1) })
  | _ => (0, 0, { d with phase := .unknown })

def outsw (d : Drive) (lo hi : Byte) : Drive :=
  match d.phase with
  | .taking slave lba got i =>
    let got := patch got (2 * i) 2 fun k => if k = 0 then lo else hi
    { d with phase := if i = 255 then .storing slave lba got else .taking slave lba got (i + 1) }
  | _ => { d with phase := .unknown }

end Drive

/-! ## The atomic disk -/

/-- An access to one sector by a thread, with the bytes that went over unless the drive failed. -/
structure Access where
  tid : Tid
  write : Bool
  slave : Bool
  lba : Nat
  data : Option Store

namespace Access

/-- A read gets the bytes of the sector. -/
def Sees (e : Access) (m : Media) : Prop :=
  e.write = false → ∀ d, e.data = some d → ∀ j, j < 512 → d j = m e.slave (512 * e.lba + j)

def apply (e : Access) (m : Media) : Media :=
  match e.write, e.data with
  | true, some d => Function.update m e.slave (patch (m e.slave) (512 * e.lba) 512 d)
  | _, _ => m

end Access

/-- The disks as the file system knows them: one access is one step. -/
def Atomic (m : Media) (e : Access) (m' : Media) : Prop := e.Sees m ∧ m' = e.apply m

/-! ## The threads -/

/-- A call of `ide_read` or `ide_write`. The accesses, the first bytes of the buffer and the number
of accesses before the call are for the proofs alone. -/
structure Call where
  write : Bool
  slave : Bool
  lba : Lba
  secCnt : Nat
  curLba : Lba
  curCnt : Nat
  cursor : Nat
  accesses : List Access
  buf : Store
  start : Nat

inductive Stage
  | enter | loop | fetch | selectDisk | check
  | outs (ws : List (Reg × Byte))
  | expect | cmdOut | down
  | busyWait (timeLimit : Nat)
  | drq
  | transfer (i : Nat)
  | settle (k : Nat)
  | release

inductive Pc
  | user
  | at (c : Call) (st : Stage)

def device (slave : Bool) : Byte := BIT_DEV_MBS ||| BIT_DEV_LBA ||| (if slave then BIT_DEV_DEV else 0)

/-- What `select_sector` writes for one sector. -/
def selectSector (slave : Bool) (lba : Lba) : List (Reg × Byte) :=
  [(.sectCnt, 1), (.lbaL, lba.setWidth 8), (.lbaM, (lba >>> 8).setWidth 8),
    (.lbaH, (lba >>> 16).setWidth 8), (.dev, device slave ||| (lba >>> 24).setWidth 8)]

namespace Call

def cmd (c : Call) : Byte := if c.write then CMD_WRITE_SECTOR else CMD_READ_SECTOR

/-- The end of one round of the loop. -/
def advance (c : Call) : Call :=
  { c with curLba := c.curLba + 1, curCnt := c.curCnt - 1, cursor := c.cursor + 512 }

end Call

inductive Panic
  | lba | refused | semaphore
  deriving DecidableEq

/-- A call that came back, with its buffer. -/
structure Done where
  tid : Tid
  call : Call
  buf : Store
  stop : Nat

/-- A request of the drive that the interrupt controller has, and what the handler does with it. -/
structure Irq where
  pending : Bool
  expectingIntr : Bool
  diskDone : Nat

structure State where
  drive : Drive
  irq : Irq
  holder : Option Tid
  pc : Tid → Pc
  buf : Tid → Store
  halted : Option Panic
  log : List Access
  returned : List Done

namespace State

def boot (drive : Drive) (buf : Tid → Store) : State where
  drive := { drive with phase := .idle }
  irq := ⟨false, false, 0⟩
  holder := none
  pc := fun _ => .user
  buf := buf
  halted := none
  log := []
  returned := []

def goto (s : State) (t : Tid) (c : Call) (st : Stage) : State :=
  { s with pc := Function.update s.pc t (.at c st) }

def halt (s : State) (p : Panic) : State := { s with halted := some p }

def outb (s : State) (r : Reg) (b : Byte) : State := { s with drive := s.drive.outb r b }

/-- The drive gave no data: a read goes on without it. -/
def failed (s : State) (t : Tid) (c : Call) : State :=
  if c.write then s.halt .refused else s.goto t c .release

/-- One word between the buffer and the drive. -/
def word (s : State) (t : Tid) (c : Call) (i : Nat) : State :=
  let a := c.cursor + 2 * i
  if c.write then { s with drive := s.drive.outsw (s.buf t a) (s.buf t (a + 1)) }
  else
    let (lo, hi, drive) := s.drive.insw
    { s with
      drive := drive
      buf := Function.update s.buf t (patch (s.buf t) a 2 fun k => if k = 0 then lo else hi) }

/-- The call comes back. -/
def finish (s : State) (t : Tid) (c : Call) : State :=
  { s with
    pc := Function.update s.pc t .user
    returned := s.returned ++ [⟨t, c, s.buf t, s.log.length⟩] }

/-- The next step of a thread inside a call. `status` is what the status register shows. The loop of
`busy_wait` takes `10 >= 0`, which is 1, off its limit. -/
def advance (s : State) (t : Tid) (status : Byte) : Option State :=
  match s.pc t with
  | .user => none
  | .at c .enter =>
    if c.lba ≤ maxLba ∧ 0 < c.secCnt then some (s.goto t c .loop) else some (s.halt .lba)
  | .at c .loop => if c.curCnt = 0 then some (s.finish t c) else some (s.goto t c .fetch)
  | .at c .fetch =>
    if s.holder = none then some ({ s with holder := some t }.goto t c .selectDisk) else none
  | .at c .selectDisk => some ((s.outb .dev (device c.slave)).goto t c .check)
  | .at c .check =>
    if c.curLba ≤ maxLba then some (s.goto t c (.outs (selectSector c.slave c.curLba)))
    else some (s.halt .lba)
  | .at c (.outs []) => some (s.goto t c .expect)
  | .at c (.outs (w :: ws)) => some ((s.outb w.1 w.2).goto t c (.outs ws))
  | .at c .expect => some ({ s with irq := { s.irq with expectingIntr := true } }.goto t c .cmdOut)
  | .at c .cmdOut =>
    some ((s.outb .cmd c.cmd).goto t c (if c.write then .busyWait (30 * 1000) else .down))
  | .at c .down =>
    if s.irq.diskDone = 0 then none
    else if s.irq.diskDone - 1 = 0 then
      some ({ s with irq := { s.irq with diskDone := s.irq.diskDone - 1 } }.goto t c
        (if c.write then .release else .busyWait (30 * 1000)))
    else some (s.halt .semaphore)
  | .at c (.busyWait timeLimit) =>
    if timeLimit - 1 = 0 then some (s.failed t c)
    else if status &&& ATA_STATR_BSY = 0 then some (s.goto t c .drq)
    else some (s.goto t c (.busyWait (timeLimit - 1)))
  | .at c .drq => if status &&& ATA_STATR_DRQ = 0 then some (s.failed t c) else some (s.goto t c (.transfer 0))
  | .at c (.transfer i) =>
    if i = 256 then some (s.goto t c (if c.write then .down else .settle 0))
    else some ((s.word t c i).goto t c (.transfer (i + 1)))
  | .at c (.settle k) => if k = 4 then some (s.goto t c .release) else some (s.goto t c (.settle (k + 1)))
  | .at c .release => some ({ s with holder := none }.goto t c.advance .loop)

/-- `intr_hd_handler`. -/
def handler (s : State) : State :=
  if s.irq.expectingIntr then
    if s.irq.diskDone + 1 = 1 then { s with irq := ⟨false, false, s.irq.diskDone + 1⟩ }
    else s.halt .semaphore
  else { s with irq := { s.irq with pending := false } }

/-- The drive is through with the access `e` of the thread that holds the lock. -/
def note (s : State) (e : Access) : State :=
  { s with
    log := s.log ++ [e]
    pc := fun t => match s.pc t with
      | .at c st => if s.holder = some t then .at { c with accesses := c.accesses ++ [e] } st else .at c st
      | .user => .user }

/-- The drive goes on by itself. It may fail instead. -/
def driven (s : State) (ok : Bool) : Option State :=
  let tid := s.holder.getD 0
  match s.drive.phase with
  | .reading slave lba =>
    let src : Store := fun j => s.drive.media slave (512 * lba + j)
    let e : Access := ⟨tid, false, slave, lba, if ok then some src else none⟩
    some ({ s with
      drive := { s.drive with phase := if ok then .sending src 0 else .idle }
      irq := { s.irq with pending := true } }.note e)
  | .preparing slave lba =>
    if ok then some { s with drive := { s.drive with phase := .taking slave lba (fun _ => 0) 0 } }
    else some ({ s with
      drive := { s.drive with phase := .idle }
      irq := { s.irq with pending := true } }.note ⟨tid, true, slave, lba, none⟩)
  | .storing slave lba got =>
    let e : Access := ⟨tid, true, slave, lba, if ok then some got else none⟩
    some ({ s with
      drive := { s.drive with phase := .idle, media := e.apply s.drive.media }
      irq := { s.irq with pending := true } }.note e)
  | _ => none

def call (s : State) (t : Tid) (write slave : Bool) (lba : Lba) (secCnt : Nat) : State :=
  s.goto t ⟨write, slave, lba, secCnt, lba, secCnt, 0, [], s.buf t, s.log.length⟩ .enter

/-- A thread in user code writes to its buffer. -/
def fill (s : State) (t : Tid) (b : Store) : State := { s with buf := Function.update s.buf t b }

end State

inductive Event
  | fill (t : Tid) (b : Store)
  | call (t : Tid) (write slave : Bool) (lba : Lba) (secCnt : Nat)
  | advance (t : Tid) (status : Byte)
  | driven (ok : Bool)
  | handler

inductive Step (s : State) : Event → State → Prop
  | fill {t : Tid} {b : Store} : s.halted = none → s.pc t = .user → Step s (.fill t b) (s.fill t b)
  | call {t : Tid} {write slave : Bool} {lba : Lba} {secCnt : Nat} : s.halted = none → s.pc t = .user →
      Step s (.call t write slave lba secCnt) (s.call t write slave lba secCnt)
  | advance {t : Tid} {status : Byte} {u : State} : s.halted = none → s.drive.phase.Shows status →
      s.advance t status = some u → Step s (.advance t status) u
  | driven {ok : Bool} {u : State} : s.halted = none → s.driven ok = some u → Step s (.driven ok) u
  | handler : s.halted = none → s.irq.pending = true → Step s .handler s.handler

end Frog.Ide
