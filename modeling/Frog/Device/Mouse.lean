import Frog.Device.Reader
import Mathlib.Data.Fintype.Basic

/-!
# The mouse

`handle_ps2_mouse_scancode` and `read_pcmouse` in `core/device/pc_mouse.c`. The handler collects the
three or four bytes of a packet and puts a record of 16 bytes into the queue. A call asks for a
number of bytes and counts down the packets that are missing.
-/

set_option autoImplicit false

namespace Frog.Device.Pcmouse

/-! ## The interrupt handler -/

/-- `mouse_mode` -/
inductive Mode where
  | default | scrollwheel | buttons
  deriving DecidableEq

def MOUSE_V_BIT : Byte := 0x08
def MOUSE_MAGIC : BitVec 32 := 0xfeed1234

def LEFT_CLICK : BitVec 32 := 0x01
def RIGHT_CLICK : BitVec 32 := 0x02
def MIDDLE_CLICK : BitVec 32 := 0x04
def MOUSE_SCROLL_UP : BitVec 32 := 0x10
def MOUSE_SCROLL_DOWN : BitVec 32 := 0x20

/-- `mouse_device_packet_t` -/
structure Packet where
  magic : BitVec 32
  xDifference : Int
  yDifference : Int
  buttons : BitVec 32
  deriving DecidableEq

/-- `sizeof(mouse_device_packet_t)` -/
def packetSize : Nat := 16
def MOUSE_PKG_BUF_SIZE : Nat := packetSize * 1024

/-- `mdata` -/
structure RawData where
  buf : Nat → Byte
  stage : Nat

structure Mouse where
  mdata : RawData
  queue : MaskQueue Packet

def RawData.store (d : RawData) (i : Nat) (b : Byte) : RawData :=
  { d with buf := Function.update d.buf i b }

def RawData.advance (d : RawData) : RawData := { d with stage := d.stage + 1 }

def delta (b0 b : Byte) (signBit : Nat) : Int :=
  if b ≠ 0 ∧ b0.getLsbD signBit then (b.toNat : Int) - 0x100 else b.toNat

/-- The packet of the collected bytes. -/
def makePacket (mode : Mode) (buf : Nat → Byte) : Packet :=
  let lost := (buf 0).getLsbD 6 || (buf 0).getLsbD 7
  let click := (if buf 0 &&& 0x01 ≠ 0 then LEFT_CLICK else 0) |||
    (if buf 0 &&& 0x02 ≠ 0 then RIGHT_CLICK else 0) |||
    (if buf 0 &&& 0x04 ≠ 0 then MIDDLE_CLICK else 0)
  let scroll :=
    if mode = .scrollwheel ∧ buf 3 ≠ 0 then
      if (buf 3).toInt > 0 then MOUSE_SCROLL_DOWN
      else if (buf 3).toInt < 0 then MOUSE_SCROLL_UP
      else 0
    else 0
  { magic := MOUSE_MAGIC
    xDifference := if lost then 0 else delta (buf 0) (buf 1) 4
    yDifference := if lost then 0 else delta (buf 0) (buf 2) 5
    buttons := click ||| scroll }

def makeMousePacket (mode : Mode) (d : RawData) (queue : MaskQueue Packet) : Mouse :=
  ⟨{ d with stage := 0 }, queue.put MOUSE_PKG_BUF_SIZE packetSize (makePacket mode d.buf)⟩

def handlePs2MouseScancode (mode : Mode) (mouseIn : Byte) (s : Mouse) : Mouse :=
  let d := s.mdata
  match d.stage with
  | 0 =>
    if mouseIn &&& MOUSE_V_BIT = 0 then { s with mdata := d.store 0 mouseIn }
    else { s with mdata := (d.store 0 mouseIn).advance }
  | 1 => { s with mdata := (d.store 1 mouseIn).advance }
  | 2 =>
    if mode = .scrollwheel ∨ mode = .buttons then { s with mdata := (d.store 2 mouseIn).advance }
    else makeMousePacket mode (d.store 2 mouseIn) s.queue
  | 3 => makeMousePacket mode (d.store 3 mouseIn) s.queue
  | _ => s

/-! ## The mouse and its readers -/

/-- `received` has the bytes of all interrupts so far. -/
structure Sys where
  mouse : Mouse
  place : Nat → Place Packet
  received : List Byte

/-- The queue of `pc_mouse_init`. -/
def Sys.init : Sys :=
  ⟨⟨⟨fun _ => 0, 0⟩, ⟨0, 0, fun _ => ⟨0, 0, 0, 0⟩⟩⟩, fun _ => .outside, []⟩

def Sys.readers (s : Sys) : Readers Packet := ⟨s.mouse.queue, s.place⟩

/-- A reader of the mouse waits until the queue is not empty. -/
inductive Step (mode : Mode) : Sys → Label Packet → Sys → Prop
  | scan {s : Sys} {b : Byte} : Step mode s (.scan b)
    { s with mouse := handlePs2MouseScancode mode b s.mouse, received := s.received ++ [b] }
  | read {s : Sys} {l : Label Packet} {r : Readers Packet} :
    ReadStep MOUSE_PKG_BUF_SIZE packetSize false s.readers l r →
    Step mode s l { s with mouse := { s.mouse with queue := r.queue }, place := r.place }

/-! ## The protocol of the mouse -/

def Mode.length : Mode → Nat
  | .default => 3
  | .scrollwheel | .buttons => 4

/-- A movement has nine bits, the sign is in the first byte. -/
def movement (sign : Bool) (b : Byte) : Int := (BitVec.ofBool sign ++ b).toInt

/-- Whether the mouse has moved more than it can tell. -/
def overflow (b0 : Byte) : Bool := b0.getLsbD 6 || b0.getLsbD 7

def wheel (mode : Mode) (b : Byte) : BitVec 32 :=
  if mode ≠ .scrollwheel then 0
  else if b = 0 then 0
  else if b.msb then MOUSE_SCROLL_UP
  else MOUSE_SCROLL_DOWN

/-- The packet that bytes encode. -/
def encoded (mode : Mode) (bs : List Byte) : Packet :=
  let b0 := bs.getD 0 0
  { magic := MOUSE_MAGIC
    xDifference := if overflow b0 then 0 else movement (b0.getLsbD 4) (bs.getD 1 0)
    yDifference := if overflow b0 then 0 else movement (b0.getLsbD 5) (bs.getD 2 0)
    buttons := (b0 &&& 0x07).setWidth 32 ||| wheel mode (bs.getD 3 0) }

/-- The bytes of a packet that is not complete, and the packet that a byte completes. A byte without
the bit that each first byte has begins no packet. -/
def next (mode : Mode) (bs : List Byte) (b : Byte) : List Byte × Option Packet :=
  if bs = [] ∧ b.getLsbD 3 = false then ([], none)
  else if bs.length + 1 = mode.length then ([], some (encoded mode (bs ++ [b])))
  else (bs ++ [b], none)

def collected (mode : Mode) (bs : List Byte) : List Byte :=
  bs.foldl (fun d b => (next mode d b).1) []

structure Ideal where
  bytes : List Byte
  feed : Feed Packet

/-- A queue of at most 1023 packets. -/
inductive IdealStep (mode : Mode) : Ideal → Label Packet → Ideal → Prop
  | scan {i : Ideal} {b : Byte} : IdealStep mode i (.scan b) ⟨(next mode i.bytes b).1,
    { i.feed with queued := offer 1024 (next mode i.bytes b).2 i.feed.queued }⟩
  | read {i : Ideal} {l : Label Packet} {f : Feed Packet} : FeedStep packetSize i.feed l f →
    IdealStep mode i l { i with feed := f }

def Ideal.init : Ideal := ⟨[], [], fun _ => [], fun _ => 0⟩

/-! ## The condition -/

/-- No movement of -256, the one whose byte is zero. -/
def Moves (bs : List Byte) : Prop :=
  overflow (bs.getD 0 0) = true ∨
    ((bs.getD 0 0).getLsbD 4 = true → bs.getD 1 0 ≠ 0) ∧
    ((bs.getD 0 0).getLsbD 5 = true → bs.getD 2 0 ≠ 0)

/-- A packet has no movement of -256, and a call ends with all packets it asked for. -/
def Sys.Meets (mode : Mode) (s : Sys) : Label Packet → Prop
  | .scan b => (collected mode s.received).length + 1 = mode.length →
    Moves (collected mode s.received ++ [b])
  | l => l.Full s.readers

/-! ## Packets -/

section Packets
variable {mode : Mode} {buf : Nat → Byte} {bs : List Byte} {b : Byte}

theorem delta_eq_movement {b0 : Byte} {i : Nat} (hb : b0.getLsbD i = true → b ≠ 0) :
    delta b0 b i = movement (b0.getLsbD i) b := by
  have h : ∀ (sign : Bool) (b : Byte), (sign = true → b ≠ 0) →
      (if b ≠ 0 ∧ sign = true then (b.toNat : Int) - 0x100 else b.toNat) = movement sign b := by
    decide +kernel
  exact h (b0.getLsbD i) b hb

theorem clicks_eq : ∀ b0 : Byte, (if b0 &&& 0x01 ≠ 0 then LEFT_CLICK else 0) |||
    (if b0 &&& 0x02 ≠ 0 then RIGHT_CLICK else 0) |||
    (if b0 &&& 0x04 ≠ 0 then MIDDLE_CLICK else 0) = (b0 &&& 0x07).setWidth 32 := by decide +kernel

theorem scroll_eq : ∀ b : Byte, (if b ≠ 0 then
      if b.toInt > 0 then MOUSE_SCROLL_DOWN else if b.toInt < 0 then MOUSE_SCROLL_UP else 0
    else 0) = wheel .scrollwheel b := by decide +kernel

/-- The handler makes the packet that the bytes encode. -/
theorem makePacket_eq (h : ∀ i < mode.length, buf i = bs.getD i 0) (hm : Moves bs) :
    makePacket mode buf = encoded mode bs := by
  have hlen : 3 ≤ mode.length := by cases mode <;> decide
  have h0 := h 0 (by omega)
  have h1 := h 1 (by omega)
  have h2 := h 2 (by omega)
  have hscroll : (if mode = .scrollwheel ∧ buf 3 ≠ 0 then
        if (buf 3).toInt > 0 then MOUSE_SCROLL_DOWN
        else if (buf 3).toInt < 0 then MOUSE_SCROLL_UP
        else 0
      else 0) = wheel mode (bs.getD 3 0) := by
    by_cases hs : mode = .scrollwheel
    · subst hs
      rw [← h 3 (by decide), ← scroll_eq]
      simp
    · rw [if_neg fun hc => hs hc.1, wheel, if_pos hs]
  simp only [makePacket, encoded, hscroll, clicks_eq, h0, h1, h2]
  rw [← overflow]
  rcases hm with ho | ⟨hx, hy⟩
  · simp only [ho, if_true]
  · rw [delta_eq_movement hx, delta_eq_movement hy]

/-- The bytes of a packet are in the buffer. -/
structure Collects (mode : Mode) (d : RawData) (bs : List Byte) : Prop where
  stage : d.stage = bs.length
  short : bs.length < mode.length
  bytes : ∀ i < bs.length, d.buf i = bs.getD i 0

variable {d : RawData} {s : Mouse} {xs : List Packet}

theorem Collects.store (h : Collects mode d bs) :
    ∀ i < bs.length + 1, (d.store d.stage b).buf i = (bs ++ [b]).getD i 0 := by
  intro i hi
  change Function.update d.buf d.stage b i = _
  rw [h.stage, Function.update_apply]
  by_cases he : i = bs.length
  · rw [if_pos he, he]
    simp
  · have hlt : i < bs.length := by omega
    rw [if_neg he, h.bytes i hlt, List.getD_append _ _ _ _ hlt]

/-- What the handler does at each stage of a packet. -/
theorem handle_eq (hs : s.mdata.stage < mode.length) : handlePs2MouseScancode mode b s =
    if s.mdata.stage = 0 ∧ b &&& MOUSE_V_BIT = 0 then { s with mdata := s.mdata.store 0 b }
    else if s.mdata.stage + 1 = mode.length then
      makeMousePacket mode (s.mdata.store s.mdata.stage b) s.queue
    else { s with mdata := (s.mdata.store s.mdata.stage b).advance } := by
  obtain ⟨⟨buf, stage⟩, queue⟩ := s
  have hlen : 3 ≤ mode.length ∧ mode.length ≤ 4 := by cases mode <;> decide
  have h3 : (2 + 1 = mode.length) ↔ ¬(mode = .scrollwheel ∨ mode = .buttons) := by
    cases mode <;> decide
  change stage < mode.length at hs
  rcases stage with _ | _ | _ | _ | n
  · have h1 : ¬(0 + 1 = mode.length) := by omega
    simp only [handlePs2MouseScancode, true_and, if_neg h1]
  · have h2 : ¬(1 + 1 = mode.length) := by omega
    simp only [handlePs2MouseScancode, Nat.zero_add, if_neg h2, Nat.one_ne_zero, false_and, if_false]
  · simp only [handlePs2MouseScancode, Nat.zero_add, h3, Nat.reduceAdd, reduceCtorEq, false_and,
      if_false, ite_not]
  · have h4 : 3 + 1 = mode.length := by omega
    simp only [handlePs2MouseScancode, Nat.zero_add, Nat.reduceAdd, h4, reduceCtorEq, false_and,
      if_false, if_true]
  · omega

/-- A byte does to the buffer and the queue what the protocol has it do. -/
theorem Collects.handle (h : Collects mode s.mdata bs)
    (hq : s.queue.Holds 1024 packetSize xs)
    (hm : bs.length + 1 = mode.length → Moves (bs ++ [b])) :
    Collects mode (handlePs2MouseScancode mode b s).mdata (next mode bs b).1 ∧
      (handlePs2MouseScancode mode b s).queue.Holds 1024 packetSize
        (offer 1024 (next mode bs b).2 xs) := by
  have hbit : ∀ b : Byte, b &&& MOUSE_V_BIT = 0 ↔ b.getLsbD 3 = false := by decide +kernel
  have hnil : s.mdata.stage = 0 ↔ bs = [] := by rw [h.stage, List.length_eq_zero_iff]
  have hfirst : s.mdata.stage = 0 ∧ b &&& MOUSE_V_BIT = 0 ↔ bs = [] ∧ b.getLsbD 3 = false :=
    and_congr hnil (hbit b)
  have hpos : 0 < mode.length := by cases mode <;> decide
  rw [handle_eq (h.stage ▸ h.short), next]
  by_cases hstart : bs = [] ∧ b.getLsbD 3 = false
  · rw [if_pos (hfirst.mpr hstart), if_pos hstart]
    exact ⟨⟨hnil.mpr hstart.1, hpos, nofun⟩, hq⟩
  rw [if_neg fun hc => hstart (hfirst.mp hc), if_neg hstart, h.stage]
  by_cases hlast : bs.length + 1 = mode.length
  · rw [if_pos hlast, if_pos hlast]
    have hp : makePacket mode (s.mdata.store bs.length b).buf = encoded mode (bs ++ [b]) := by
      refine makePacket_eq (fun i hi => ?_) (hm hlast)
      rw [← h.stage]
      exact h.store i (hlast ▸ hi)
    refine ⟨⟨rfl, hpos, nofun⟩, ?_⟩
    rw [makeMousePacket, hp]
    exact hq.put
  · rw [if_neg hlast, if_neg hlast]
    have hshort := h.short
    have hlen : (bs ++ [b]).length = bs.length + 1 := List.length_append
    have hless : (bs ++ [b]).length < mode.length := by omega
    refine ⟨⟨?_, hless, fun i hi => ?_⟩, hq⟩
    · rw [hlen, ← h.stage]
      rfl
    · rw [← h.stage]
      exact h.store i (hlen ▸ hi)

end Packets

/-! ## Runs -/

abbrev GoodStep (mode : Mode) : Sys → Label Packet → Sys → Prop :=
  Guarded (Sys.Meets mode) (Step mode)

/-- The mouse has what it should have. -/
structure Sim (mode : Mode) (s : Sys) (i : Ideal) : Prop where
  collects : Collects mode s.mouse.mdata i.bytes
  bytes : i.bytes = collected mode s.received
  reads : Reads 1024 packetSize s.readers i.feed

section Runs
variable {mode : Mode} {s t : Sys} {i : Ideal} {l : Label Packet} {ls : List (Label Packet)}

theorem Sim.init : Sim mode Sys.init Ideal.init :=
  ⟨⟨rfl, by cases mode <;> decide, nofun⟩, rfl, .init (by decide) (by decide) ⟨14, rfl⟩⟩

theorem collected_append {bs : List Byte} {b : Byte} :
    collected mode (bs ++ [b]) = (next mode (collected mode bs) b).1 := by
  rw [collected, List.foldl_append]
  rfl

theorem Sim.step (h : Sim mode s i) (hm : s.Meets mode l) (hst : Step mode s l t) :
    ∃ j, IdealStep mode i l j ∧ Sim mode t j := by
  cases hst with
  | @scan b =>
    rw [Sys.Meets, ← h.bytes] at hm
    obtain ⟨hc, hq⟩ := h.collects.handle h.reads.queue hm
    refine ⟨_, .scan, hc, ?_, hq, h.reads.readers, h.reads.waiting⟩
    rw [collected_append, ← h.bytes]
  | read hread =>
    have hfull : l.Full s.readers := by
      cases hread <;> exact hm
    obtain ⟨f, hf, hr⟩ := hread.feed h.reads rfl (.inr hfull)
    exact ⟨_, .read hf, h.collects, h.bytes, hr⟩

theorem Sim.run (h : Sim mode s i) (hrun : Run (GoodStep mode) s ls t) :
    ∃ j, Run (IdealStep mode) i ls j ∧ Sim mode t j := by
  induction hrun generalizing i with
  | nil s => exact ⟨i, .nil i, h⟩
  | cons hst _ ih =>
    obtain ⟨j, hj, hs⟩ := h.step hst.1 hst.2
    obtain ⟨k, hk, ht⟩ := ih hs
    exact ⟨k, .cons hj hk, ht⟩

/-- In every run that meets the condition, readers get the packets that the bytes encode, but those
that come while the queue is full, in order, and return how many bytes they have stored. -/
theorem mouse_run (hrun : Run (GoodStep mode) Sys.init ls s) :
    ∃ i, Run (IdealStep mode) Ideal.init ls i ∧ i.bytes = collected mode s.received ∧
      s.mouse.queue.Holds 1024 packetSize i.feed.queued := by
  obtain ⟨i, hi, h⟩ := Sim.init.run hrun
  exact ⟨i, hi, h.bytes, h.reads.queue⟩

/-- One packet, and a call for one packet. -/
theorem mouse_run_one : ∃ s i, Run (GoodStep .default) Sys.init [.scan 0x19, .scan 0xff, .scan 0x01,
      .enter 0 16, .take 0 ⟨MOUSE_MAGIC, -1, 1, LEFT_CLICK⟩,
      .ret 0 [⟨MOUSE_MAGIC, -1, 1, LEFT_CLICK⟩] 16] s ∧
    Run (IdealStep .default) Ideal.init [.scan 0x19, .scan 0xff, .scan 0x01, .enter 0 16,
      .take 0 ⟨MOUSE_MAGIC, -1, 1, LEFT_CLICK⟩, .ret 0 [⟨MOUSE_MAGIC, -1, 1, LEFT_CLICK⟩] 16] i := by
  have hrun : ∃ s, Run (GoodStep .default) Sys.init [.scan 0x19, .scan 0xff, .scan 0x01,
      .enter 0 16, .take 0 ⟨MOUSE_MAGIC, -1, 1, LEFT_CLICK⟩,
      .ret 0 [⟨MOUSE_MAGIC, -1, 1, LEFT_CLICK⟩] 16] s :=
    ⟨_, .cons ⟨nofun, .scan⟩ (.cons ⟨nofun, .scan⟩ (.cons ⟨fun _ => .inr ⟨by decide, by decide⟩, .scan⟩
      (.cons ⟨trivial, .read (.enter rfl rfl rfl)⟩
        (.cons ⟨trivial, .read (@ReadStep.take _ _ _ _ _ 0 16 0 [] rfl rfl)⟩
          (.single ⟨fun _ _ _ h => (Place.copying.inj h).2.1.symm,
            .read (@ReadStep.ret _ _ _ _ _ 0 16 0 [_] rfl (.inl rfl))⟩)))))⟩
  obtain ⟨s, hs⟩ := hrun
  obtain ⟨i, hi, -⟩ := mouse_run hs
  exact ⟨s, i, hs, hi⟩

/-- A call for two packets that finds one returns one byte less than it asked for. -/
theorem short_read : ∃ s, Run (Step .default) Sys.init [.scan 0x08, .scan 0x01, .scan 0x01, .enter 0 32,
    .take 0 ⟨MOUSE_MAGIC, 1, 1, 0⟩, .ret 0 [⟨MOUSE_MAGIC, 1, 1, 0⟩] 31] s :=
  ⟨_, .cons .scan (.cons .scan (.cons .scan (.cons (.read (.enter rfl rfl rfl))
    (.cons (.read (@ReadStep.take _ _ _ _ _ 0 32 1 [] rfl rfl))
      (.single (.read (@ReadStep.ret _ _ _ _ _ 0 32 1 [_] rfl (.inr rfl))))))))⟩

end Runs

end Frog.Device.Pcmouse
