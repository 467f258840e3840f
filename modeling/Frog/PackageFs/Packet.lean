import Frog.Lib.Prog
import Frog.Thread.Ring

/-!
# Packages

`core/vfs/packagefs.c` behind the choice between a server's file and a client's, and
`core/lib/packetx.c` on top of it. Memory can be had. A transfer that has to wait for room or for
data stops with `wait`; what happens between the transfers of several threads is another model.
-/

namespace Frog.PackageFs

set_option autoImplicit false
open Prog
open Frog.Thread (CircleQueue)

abbrev Byte := Thread.Byte

/-- The address of a server or of a client; zero is `NULL`. -/
abbrev Addr := BitVec 32

/-! ## Words in lists of bytes -/

def le32 (v : BitVec 32) : List Byte := (List.range 4).map (Bytes.leByte v.toNat)

def word (l : List Byte) : BitVec 32 :=
  BitVec.ofNat 32 ((l.getD 0 0).toNat + 256 * (l.getD 1 0).toNat + 65536 * (l.getD 2 0).toNat +
    16777216 * (l.getD 3 0).toNat)

@[simp] theorem length_le32 (v : BitVec 32) : (le32 v).length = 4 := by simp [le32]

@[simp] theorem word_le32_append (v : BitVec 32) (l : List Byte) : word (le32 v ++ l) = v := by
  have hv := v.isLt
  apply BitVec.eq_of_toNat_eq
  simp only [word, le32, List.range, List.range.loop, List.map_cons, List.map_nil, List.cons_append,
    List.getD_cons_zero, List.getD_cons_succ, Bytes.leByte_toNat, BitVec.toNat_ofNat]
  norm_num
  omega

@[simp] theorem word_le32 (v : BitVec 32) : word (le32 v) = v := by
  simpa using word_le32_append v []

/-! ## The kernel side -/

/-- `package_t`. -/
structure Package where
  size : BitVec 32
  source : Addr
  data : List Byte
  deriving DecidableEq

namespace Package

def bytes (p : Package) : List Byte := le32 p.size ++ le32 p.source ++ p.data

@[simp] theorem length_bytes (p : Package) : p.bytes.length = 4 + 4 + p.data.length := by
  simp only [bytes, List.length_append, length_le32]

end Package

def maxPacketSize : BitVec 32 := 1024

/-- What a descriptor of `/dev/pkg` stands for. -/
inductive File where
  | server (p : Addr)
  | client (c : Addr)
  deriving DecidableEq

/-- `server` of each client, the `clients` of each server, and the `msg_list` of both. -/
structure State where
  server : Addr → Addr
  clients : Addr → List Addr
  msgList : File → CircleQueue

inductive Stop where
  | wait | panic
  deriving DecidableEq

abbrev M := Prog Stop State

def State.setMsgList (s : State) (f : File) (q : CircleQueue) : State :=
  { s with msgList := Function.update s.msgList f q }

/-- `ioqueue_put_data`. -/
def ioqueuePutData (f : File) (data : List Byte) : M (BitVec 32) := do
  let s ← get
  let r := (s.msgList f).putPass data data.length
  check (r.1 = 0) .wait
  modify fun s => s.setMsgList f r.2
  pure (BitVec.ofNat 32 data.length)

/-- `ioqueue_get_data`. -/
def ioqueueGetData (f : File) (count : BitVec 32) : M (List Byte) := do
  let s ← get
  let r := (s.msgList f).getPass count.toNat []
  check (r.1.length = count.toNat) .wait
  modify fun s => s.setMsgList f r.2
  pure r.1

def receivePacket (f : File) : M Package := do
  let size ← ioqueueGetData f 4
  let rest ← ioqueueGetData f (word size + 8 - 4)
  pure ⟨word size, word rest, rest.drop 4⟩

/-- The package that is made of `size` bytes of a buffer. -/
def pack (size : BitVec 32) (source : Addr) (data : Nat → Byte) : Package :=
  ⟨size, source, (List.range size.toNat).map data⟩

def sendToServer (serv c : Addr) (size : BitVec 32) (data : Nat → Byte) : M (BitVec 32) :=
  ioqueuePutData (.server serv) (pack size c data).bytes

def sendToClient (c : Addr) (size : BitVec 32) (data : Nat → Byte) : M (BitVec 32) :=
  ioqueuePutData (.client c) (pack size 0 data).bytes

/-- The loop over the clients in `write_server`. -/
def broadcast (size : BitVec 32) (data : Nat → Byte) : List Addr → M Unit
  | [] => pure ()
  | c :: cs => do
    let _ ← sendToClient c size data
    broadcast size data cs

def writeServer (p : Addr) (buf : Nat → Byte) (count : BitVec 32) : M (BitVec 32) :=
  if maxPacketSize < count - 4 then pure (-1)
  else do
    let target := word ((List.range 4).map buf)
    let data := fun i => buf (4 + i)
    let s ← get
    if target = 0 then
      broadcast (count - 4) data (s.clients p)
      pure count
    else if s.server target ≠ p then pure (-1)
    else do
      let res ← sendToClient target (count - 4) data
      pure (res + 4)

def writeClient (c : Addr) (buf : Nat → Byte) (count : BitVec 32) : M (BitVec 32) :=
  if maxPacketSize < count then pure (-22)
  else do
    let s ← get
    let _ ← sendToServer (s.server c) c count buf
    pure count

/-- What is returned, with the bytes that were copied into the buffer. -/
def readServer (p : Addr) (count : BitVec 32) : M (BitVec 32 × List Byte) := do
  let packet ← receivePacket (.server p)
  if count < packet.size + 8 then pure (-1, []) else pure (packet.size + 8, packet.bytes)

def readClient (c : Addr) (count : BitVec 32) : M (BitVec 32 × List Byte) := do
  let packet ← receivePacket (.client c)
  if count < packet.size + 8 then pure (-1, []) else pure (packet.size, packet.data)

/-- `sys_write` on such a descriptor. -/
def write (f : File) (buf : Nat → Byte) (count : BitVec 32) : M (BitVec 32) :=
  match f with
  | .server p => writeServer p buf count
  | .client c => writeClient c buf count

/-- `sys_read` on such a descriptor. -/
def read (f : File) (count : BitVec 32) : M (BitVec 32 × List Byte) :=
  match f with
  | .server p => readServer p count
  | .client c => readClient c count

/-! ## The library -/

def maxPacketDataSize : BitVec 32 := 1024

/-- `PACKET_SIZE`. -/
def packetSize : BitVec 32 := 8 + maxPacketDataSize

def pkxSend (sock : File) (rcpt : Addr) (size : BitVec 32) (blob : Nat → Byte) : M (BitVec 32) := do
  check (size ≤ maxPacketDataSize) .panic
  write sock (fun i => if i < 4 then (le32 rcpt).getD i 0 else blob (i - 4)) (4 + size)

def pkxListen (sock : File) : M (BitVec 32 × List Byte) := read sock packetSize

def pkxReply (sock : File) (_size : BitVec 32) (blob : Nat → Byte) : M (BitVec 32) :=
  write sock blob maxPacketDataSize

/-- The buffer is cleared first. -/
def pkxRecv (sock : File) : M (BitVec 32 × List Byte) := do
  let r ← read sock maxPacketDataSize
  pure (r.1, r.2 ++ List.replicate (maxPacketDataSize.toNat - r.2.length) 0)

end Frog.PackageFs
