import Frog.PackageFs.Transfer

/-!
# From the sender's buffer to the reader's

A package that a sender has written is in front of its queue at some time, and then the matching
call of the library reads it. The kernel compares the size of the reader's buffer with that of the
package with its header.
-/

namespace Frog.PackageFs

set_option autoImplicit false
open Prog
open Frog.Thread (CircleQueue)

/-! ## The two ends -/

/-- What a reader makes of a package. -/
structure Seen where
  size : BitVec 32
  data : List Byte
  peer : Addr
  deriving DecidableEq

/-- A server reads the fields of the `packetx_t`. -/
def listen (p : Addr) : M (Option Seen) := do
  let r ← pkxListen (.server p)
  if r.1 = -1 then pure none
  else pure (some ⟨word r.2, (r.2.drop 8).take (word r.2).toNat, word (r.2.drop 4)⟩)

/-- A client knows its server and reads as many bytes as the call says. -/
def recv (c : Addr) : M (Option Seen) := do
  let s ← get
  let r ← pkxRecv (.client c)
  if r.1 = -1 then pure none else pure (some ⟨r.1, r.2.take r.1.toNat, s.server c⟩)

def receive : File → M (Option Seen)
  | .server p => listen p
  | .client c => recv c

inductive Send where
  | pkxSend (p rcpt : Addr) (size : BitVec 32) (blob : Nat → Byte)
  | writeServer (p : Addr) (buf : Nat → Byte) (count : BitVec 32)
  | pkxReply (c : Addr) (size : BitVec 32) (blob : Nat → Byte)
  | writeClient (c : Addr) (buf : Nat → Byte) (count : BitVec 32)

namespace Send

def run : Send → M (BitVec 32)
  | pkxSend p rcpt size blob => PackageFs.pkxSend (.server p) rcpt size blob
  | writeServer p buf count => write (.server p) buf count
  | pkxReply c size blob => PackageFs.pkxReply (.client c) size blob
  | writeClient c buf count => write (.client c) buf count

/-- The size that the sender gives. -/
def size : Send → BitVec 32
  | pkxSend _ _ size _ | pkxReply _ size _ => size
  | writeServer _ _ count => count - 4
  | writeClient _ _ count => count

def payload (o : Send) : List Byte :=
  (List.range o.size.toNat).map fun i =>
    match o with
    | pkxSend _ _ _ blob | pkxReply _ _ blob | writeClient _ blob _ => blob i
    | writeServer _ buf _ => buf (4 + i)

def sender : Send → Addr
  | pkxSend p _ _ _ | writeServer p _ _ => p
  | pkxReply c _ _ | writeClient c _ _ => c

/-- One client, or all of them. -/
def recipients (s : State) (p target : Addr) : List File :=
  if target = 0 then (s.clients p).map .client else [.client target]

/-- The files that read what is sent. -/
def targets (s : State) : Send → List File
  | pkxSend p rcpt _ _ => recipients s p rcpt
  | writeServer p buf _ => recipients s p (word ((List.range 4).map buf))
  | pkxReply c _ _ | writeClient c _ _ => [.server (s.server c)]

end Send

/-- The queues are those that `init_ioqueue(4000)` made, and `create_client` has linked the clients
to their servers. -/
structure Sound (s : State) : Prop where
  queues : ∀ f, (s.msgList f).size = 4000 ∧ ∃ xs, (s.msgList f).Carries xs
  nodup : ∀ p, (s.clients p).Nodup
  server : ∀ p, ∀ c ∈ s.clients p, s.server c = p

/-- If the send is accepted, then each file it is for reads it when it has read all before, and the
others notice nothing. -/
def RoundTrip (o : Send) (s : State) : Prop :=
  ∀ r s', o.run s = .ok (r, s') → 0 ≤ r.toInt → ∀ f,
    (f ∉ o.targets s → s'.msgList f = s.msgList f) ∧
    (f ∈ o.targets s → ∀ xs, (s.msgList f).Carries xs →
      ∃ new, (s'.msgList f).Carries (xs ++ new) ∧
        ∀ t ys, t.server = s.server → (t.msgList f).Carries (new ++ ys) →
          ∃ t', receive f t = .ok (some ⟨o.size, o.payload, o.sender⟩, t') ∧
            (t'.msgList f).Carries ys)

/-! ## Sending -/

/-- The package `pk` has been put into the queues of the files `fs`. -/
structure Sent (s s' : State) (fs : List File) (pk : Package) : Prop where
  server : s'.server = s.server
  clients : s'.clients = s.clients
  other : ∀ f, f ∉ fs → s'.msgList f = s.msgList f
  added : ∀ f, f ∈ fs → ∀ xs, (s.msgList f).Carries xs → (s'.msgList f).Carries (xs ++ pk.bytes)

section Lemmas
variable {s s' t : State} {f : File} {fs : List File} {xs ys data : List Byte} {pk : Package}
  {size count r : BitVec 32} {p c : Addr} {buf : Nat → Byte} {u : Unit}

theorem length_pack (hs : size ≤ 1024) (source : Addr) (data : Nat → Byte) :
    (pack size source data).bytes.length = 8 + size.toNat ∧ size.toNat ≤ 1024 := by
  have hle := BitVec.le_def.mp hs
  refine ⟨?_, hle⟩
  simp [pack]

theorem sent_put (hs : size ≤ 1024) {source : Addr} {data : Nat → Byte}
    (h : ioqueuePutData f (pack size source data).bytes s = .ok (r, s')) :
    Sent s s' [f] (pack size source data) ∧ r = 8 + size := by
  obtain ⟨hl, hle⟩ := length_pack hs source data
  obtain ⟨hr, q, rfl, hq⟩ := put_ok (by omega) h
  refine ⟨⟨rfl, rfl, fun g hg => ?_, fun g hg xs hx => ?_⟩, ?_⟩
  · exact setMsgList_other (fun he => hg (by rw [he]; exact List.mem_singleton.mpr rfl)) q
  · obtain rfl := List.mem_singleton.mp hg
    rw [setMsgList_self]
    exact (hq xs hx).1
  · rw [hr, hl]
    apply BitVec.eq_of_toNat_eq
    rw [BitVec.toNat_ofNat, BitVec.toNat_add]
    rfl

/-- The loop over the clients. -/
theorem sent_broadcast (hs : size ≤ 1024) {cs : List Addr} (hd : cs.Nodup)
    (h : broadcast size buf cs s = .ok (u, s')) :
    Sent s s' (cs.map .client) (pack size 0 buf) := by
  induction cs generalizing s with
  | nil =>
    cases h
    exact ⟨rfl, rfl, fun _ _ => rfl, fun f hf => by cases hf⟩
  | cons c cs ih =>
    obtain ⟨hc, hd⟩ := List.nodup_cons.mp hd
    obtain ⟨_, t, h₁, h₂⟩ := bind_eq_ok.mp h
    have hput := (sent_put hs h₁).1
    have hrest := ih hd h₂
    have hne : File.client c ∉ cs.map File.client := by
      intro hm
      obtain ⟨d, hd, he⟩ := List.mem_map.mp hm
      cases he
      exact hc hd
    refine ⟨hrest.server.trans hput.server, hrest.clients.trans hput.clients, fun f hf => ?_,
      fun f hf xs hx => ?_⟩
    · rw [List.map_cons, List.mem_cons, not_or] at hf
      rw [hrest.other f hf.2]
      exact hput.other f fun hm => hf.1 (List.mem_singleton.mp hm)
    · rw [List.map_cons, List.mem_cons] at hf
      rcases hf with rfl | hf
      · rw [hrest.other _ hne]
        exact hput.added _ (List.mem_singleton.mpr rfl) xs hx
      · apply hrest.added f hf
        rwa [hput.other f]
        intro hm
        obtain rfl := List.mem_singleton.mp hm
        exact hne hf

/-- An accepted write by a server. -/
theorem sent_writeServer (hS : Sound s) (hs : count - 4 ≤ 1024)
    (h : writeServer p buf count s = .ok (r, s')) (hr : 0 ≤ r.toInt) :
    Sent s s' (Send.recipients s p (word ((List.range 4).map buf)))
        (pack (count - 4) 0 fun i => buf (4 + i)) ∧
      (word ((List.range 4).map buf) ≠ 0 → s.server (word ((List.range 4).map buf)) = p) := by
  have hle : ¬ maxPacketSize < count - 4 := BitVec.not_lt.mpr hs
  unfold writeServer at h
  rw [if_neg hle] at h
  obtain ⟨_, _, hg, h⟩ := bind_eq_ok.mp h
  cases hg
  unfold Send.recipients
  by_cases h0 : word ((List.range 4).map buf) = 0
  · rw [if_pos h0] at h ⊢
    obtain ⟨_, _, hb, h⟩ := bind_eq_ok.mp h
    cases h
    exact ⟨sent_broadcast hs (hS.nodup p) hb, fun hn => absurd h0 hn⟩
  · rw [if_neg h0] at h ⊢
    by_cases hp : s.server (word ((List.range 4).map buf)) = p
    · rw [if_neg (fun hn => hn hp)] at h
      obtain ⟨_, _, hb, h⟩ := bind_eq_ok.mp h
      cases h
      exact ⟨(sent_put hs hb).1, fun _ => hp⟩
    · rw [if_pos hp] at h
      cases h
      exact absurd hr (by decide)

/-- An accepted write by a client. -/
theorem sent_writeClient (hs : count ≤ 1024) (h : writeClient c buf count s = .ok (r, s')) :
    Sent s s' [.server (s.server c)] (pack count c buf) := by
  have hle : ¬ maxPacketSize < count := BitVec.not_lt.mpr hs
  unfold writeClient at h
  rw [if_neg hle] at h
  obtain ⟨_, _, hg, h⟩ := bind_eq_ok.mp h
  cases hg
  obtain ⟨_, _, hb, h⟩ := bind_eq_ok.mp h
  cases h
  exact (sent_put hs hb).1

/-! ## Receiving -/

/-- The package in front of a queue, with the test of the reader's count. -/
theorem read_front (h : (t.msgList f).Carries (pk.bytes ++ ys))
    (hp : pk.size.toNat = pk.data.length) (hlt : pk.data.length ≤ 1024) :
    ∃ t', (t'.msgList f).Carries ys ∧ read f count t = .ok
      (if count < pk.size + 8 then (-1, [])
        else match f with
          | .server _ => (pk.size + 8, pk.bytes)
          | .client _ => (pk.size, pk.data), t') := by
  obtain ⟨q, hr, hq⟩ := receivePacket_front h hp hlt
  refine ⟨t.setMsgList f q, by rwa [setMsgList_self], ?_⟩
  cases f with
  | server p =>
    change (receivePacket (.server p) >>= _) t = _
    rw [bind_ok hr]
    split <;> rfl
  | client c =>
    change (receivePacket (.client c) >>= _) t = _
    rw [bind_ok hr]
    split <;> rfl

theorem toNat_size_add (hp : pk.size.toNat = pk.data.length) (hlt : pk.data.length ≤ 1024) :
    (pk.size + 8).toNat = pk.data.length + 8 := by
  rw [BitVec.toNat_add, hp]
  change (pk.data.length + 8) % 2 ^ 32 = _
  omega

theorem listen_front (h : (t.msgList (.server p)).Carries (pk.bytes ++ ys))
    (hp : pk.size.toNat = pk.data.length) (hlt : pk.data.length ≤ 1024) :
    ∃ t', listen p t = .ok (some ⟨pk.size, pk.data, pk.source⟩, t') ∧
      (t'.msgList (.server p)).Carries ys := by
  have hadd := toNat_size_add hp hlt
  obtain ⟨t', hq, hr⟩ := @read_front _ _ _ _ packetSize h hp hlt
  have hfit : ¬ packetSize < pk.size + 8 := by
    apply BitVec.not_lt.mpr
    apply BitVec.le_def.mpr
    rw [hadd]
    change pk.data.length + 8 ≤ 1032
    omega
  have hne : pk.size + 8 ≠ -1 := by
    intro he
    rw [he] at hadd
    change 2 ^ 32 - 1 = pk.data.length + 8 at hadd
    omega
  have h8 : pk.bytes.drop 8 = pk.data := by
    rw [Package.bytes]
    exact List.drop_left' (by simp)
  have h4 : pk.bytes.drop 4 = le32 pk.source ++ pk.data := by
    rw [Package.bytes, List.append_assoc]
    exact List.drop_left' (length_le32 _)
  have hw : word pk.bytes = pk.size := by
    rw [Package.bytes, List.append_assoc]
    exact word_le32_append _ _
  rw [if_neg hfit] at hr
  refine ⟨t', ?_, hq⟩
  unfold listen pkxListen
  rw [bind_ok hr]
  simp only [if_neg hne, hw, h8, h4, hp, List.take_length, word_le32_append]
  rfl

theorem recv_front (h : (t.msgList (.client c)).Carries (pk.bytes ++ ys))
    (hp : pk.size.toNat = pk.data.length) (hlt : pk.data.length ≤ 1016) :
    ∃ t', recv c t = .ok (some ⟨pk.size, pk.data, t.server c⟩, t') ∧
      (t'.msgList (.client c)).Carries ys := by
  have hadd := toNat_size_add hp (by omega)
  obtain ⟨t', hq, hr⟩ := @read_front _ _ _ _ maxPacketDataSize h hp (by omega)
  have hfit : ¬ maxPacketDataSize < pk.size + 8 := by
    apply BitVec.not_lt.mpr
    apply BitVec.le_def.mpr
    rw [hadd]
    change pk.data.length + 8 ≤ 1024
    omega
  have hne : pk.size ≠ -1 := by
    intro he
    rw [he] at hp
    change 2 ^ 32 - 1 = pk.data.length at hp
    omega
  rw [if_neg hfit] at hr
  refine ⟨t', ?_, hq⟩
  unfold recv pkxRecv
  rw [bind_ok (get_apply t), bind_ok (bind_ok hr)]
  simp only [if_neg hne, hp, List.take_left']
  rfl

/-- A package that is too big for the buffer of `pkx_recv` is refused. -/
theorem recv_long (h : (t.msgList (.client c)).Carries (pk.bytes ++ ys))
    (hp : pk.size.toNat = pk.data.length) (hlong : 1016 < pk.data.length)
    (hlt : pk.data.length ≤ 1024) : ∃ t', recv c t = .ok (none, t') := by
  have hadd := toNat_size_add hp hlt
  obtain ⟨t', hq, hr⟩ := @read_front _ _ _ _ maxPacketDataSize h hp hlt
  have hfit : maxPacketDataSize < pk.size + 8 := by
    apply BitVec.lt_def.mpr
    rw [hadd]
    change 1024 < pk.data.length + 8
    omega
  rw [if_pos hfit] at hr
  refine ⟨t', ?_⟩
  unfold recv pkxRecv
  rw [bind_ok (get_apply t), bind_ok (bind_ok hr)]
  rfl

/-! ## The round trip -/

/-- A client that a package is for is one of the server. -/
theorem recipients_client (hS : Sound s) {target : Addr} (ht : target ≠ 0 → s.server target = p)
    (hf : f ∈ Send.recipients s p target) : ∃ c, f = .client c ∧ s.server c = p := by
  unfold Send.recipients at hf
  split at hf
  · obtain ⟨c, hc, rfl⟩ := List.mem_map.mp hf
    exact ⟨c, rfl, hS.server p c hc⟩
  · next h0 => exact ⟨target, List.mem_singleton.mp hf, ht h0⟩

theorem roundTrip_writeServer (hS : Sound s) (hs : (count - 4).toNat ≤ 1016) :
    RoundTrip (.writeServer p buf count) s := by
  intro r s' h hr f
  obtain ⟨hsent, ht⟩ := sent_writeServer hS (BitVec.le_def.mpr (Nat.le_trans hs (by decide))) h hr
  refine ⟨hsent.other f, fun hf xs hx => ⟨_, hsent.added f hf xs hx, fun t ys hserv hc => ?_⟩⟩
  obtain ⟨c, rfl, hp⟩ := recipients_client hS ht hf
  have hlen := pack_size (count - 4) 0 fun i => buf (4 + i)
  obtain ⟨t', hrecv, hq⟩ := recv_front hc hlen (by rw [← hlen]; exact hs)
  rw [hserv, hp] at hrecv
  exact ⟨t', hrecv, hq⟩

theorem roundTrip_writeClient (hs : count ≤ 1024) : RoundTrip (.writeClient c buf count) s := by
  intro r s' h hr f
  have hsent := sent_writeClient hs h
  refine ⟨hsent.other f, fun hf xs hx => ⟨_, hsent.added f hf xs hx, fun t ys hserv hc => ?_⟩⟩
  obtain rfl := List.mem_singleton.mp hf
  have hlen := pack_size count c buf
  exact listen_front hc hlen (by rw [← hlen]; exact BitVec.le_def.mp hs)

/-- The buffer that `pkx_send` writes. -/
def sendBuf (rcpt : Addr) (blob : Nat → Byte) : Nat → Byte :=
  fun i => if i < 4 then (le32 rcpt).getD i 0 else blob (i - 4)

theorem word_sendBuf (rcpt : Addr) (blob : Nat → Byte) :
    word ((List.range 4).map (sendBuf rcpt blob)) = rcpt := by
  have he : (List.range 4).map (sendBuf rcpt blob) = le32 rcpt := rfl
  rw [he, word_le32]

theorem sendBuf_add (rcpt : Addr) (blob : Nat → Byte) (i : Nat) :
    sendBuf rcpt blob (4 + i) = blob i := by
  rw [sendBuf, if_neg (by omega), Nat.add_sub_cancel_left]

/-- `pkx_send` is `write_server` of its buffer. -/
theorem roundTrip_pkxSend {rcpt : Addr} {blob : Nat → Byte} (hs : size ≤ 1024) :
    RoundTrip (.pkxSend p rcpt size blob) s ↔
      RoundTrip (.writeServer p (sendBuf rcpt blob) (4 + size)) s := by
  have hrun : Send.run (.pkxSend p rcpt size blob) =
      Send.run (.writeServer p (sendBuf rcpt blob) (4 + size)) := by
    change (check (size ≤ maxPacketDataSize) .panic >>= fun _ => write _ _ _) = _
    unfold check
    rw [show maxPacketDataSize = 1024 from rfl, if_pos hs]
    rfl
  have hsize : (4 + size : BitVec 32) - 4 = size := by
    rw [BitVec.add_comm]
    exact BitVec.add_sub_cancel ..
  unfold RoundTrip
  rw [hrun]
  simp only [Send.targets, Send.size, Send.payload, Send.sender, word_sendBuf, sendBuf_add, hsize]

/-- One client, and nothing in the queues. -/
def State.alone (p : Addr) : State where
  server := fun _ => p
  clients := fun x => if x = p then [1] else []
  msgList := fun _ => .init 4000

theorem alone_sound (p : Addr) : Sound (.alone p) := by
  refine ⟨fun f => ⟨rfl, [], .init (by decide) (by decide)⟩, fun x => ?_, fun x c hc => ?_⟩
  · change (if x = p then [(1 : Addr)] else []).Nodup
    split
    · exact List.nodup_singleton 1
    · exact List.nodup_nil
  · change c ∈ if x = p then [(1 : Addr)] else [] at hc
    split at hc
    · next hx => exact hx.symm
    · cases hc

/-- An empty queue takes any package. -/
theorem put_alone (hs : size ≤ 1024) (source : Addr) (data : Nat → Byte) :
    ∃ t, ioqueuePutData f (pack size source data).bytes (.alone p) = .ok (8 + size, t) := by
  obtain ⟨hl, hle⟩ := length_pack hs source data
  have hempty : ((State.alone p).msgList f).Carries [] := .init (by decide) (by decide)
  obtain ⟨q, h, -⟩ := @put_room _ _ _ (pack size source data).bytes hempty (by
    rw [hl]
    change 0 + (8 + size.toNat) + 1 < 4000
    omega)
  exact ⟨_, (sent_put hs h).2 ▸ h⟩

theorem toInt_nonneg (h : r.toNat < 2 ^ 31) : 0 ≤ r.toInt := by
  rw [BitVec.toInt_eq_toNat_of_lt (by omega)]
  exact Int.natCast_nonneg _

theorem writeServer_alone (hs : count - 4 ≤ 1024) :
    ∃ r t, writeServer p buf count (.alone p) = .ok (r, t) ∧ 0 ≤ r.toInt := by
  have hle : ¬ maxPacketSize < count - 4 := BitVec.not_lt.mpr hs
  have hcount : count.toNat ≤ 1028 := by
    have hs' := BitVec.le_def.mp hs
    have hlt := count.isLt
    rw [BitVec.toNat_sub] at hs'
    change (2 ^ 32 - 4 + count.toNat) % 2 ^ 32 ≤ 1024 at hs'
    omega
  unfold writeServer
  rw [if_neg hle, bind_ok (get_apply _)]
  by_cases h0 : word ((List.range 4).map buf) = 0
  · obtain ⟨t, ht⟩ := put_alone (f := .client 1) (p := p) hs 0 fun i => buf (4 + i)
    have hcs : (State.alone p).clients p = [1] := if_pos rfl
    refine ⟨count, t, ?_, toInt_nonneg (by omega)⟩
    rw [if_pos h0, hcs]
    have hb : broadcast (count - 4) (fun i => buf (4 + i)) [1] (.alone p) = .ok ((), t) := by
      unfold broadcast sendToClient
      rw [bind_ok ht]
      rfl
    rw [bind_ok hb]
    rfl
  · obtain ⟨t, ht⟩ := put_alone (f := .client (word ((List.range 4).map buf))) (p := p) hs 0
      fun i => buf (4 + i)
    refine ⟨8 + (count - 4) + 4, t, ?_, toInt_nonneg ?_⟩
    · rw [if_neg h0, if_neg (fun hn => hn rfl)]
      unfold sendToClient
      rw [bind_ok ht]
      rfl
    · have hs' := BitVec.le_def.mp hs
      change (count - 4).toNat ≤ 1024 at hs'
      rw [BitVec.toNat_add, BitVec.toNat_add]
      change ((8 + (count - 4).toNat) % 2 ^ 32 + 4) % 2 ^ 32 < 2 ^ 31
      omega

theorem not_roundTrip_writeServer (hlong : 1016 < (count - 4).toNat) (hs : count - 4 ≤ 1024) :
    ¬ RoundTrip (.writeServer p buf count) (.alone p) := by
  intro hrt
  obtain ⟨r, t, h, hr⟩ := @writeServer_alone _ p buf hs
  obtain ⟨hsent, ht⟩ := sent_writeServer (alone_sound p) hs h hr
  have hf : ∃ f, f ∈ Send.recipients (.alone p) p (word ((List.range 4).map buf)) := by
    unfold Send.recipients
    split
    · have hcs : (State.alone p).clients p = [1] := if_pos rfl
      rw [hcs]
      exact ⟨_, List.mem_singleton.mpr rfl⟩
    · exact ⟨_, List.mem_singleton.mpr rfl⟩
  obtain ⟨f, hf⟩ := hf
  obtain ⟨c, rfl, hp⟩ := recipients_client (alone_sound p) ht hf
  have hempty : ((State.alone p).msgList (.client c)).Carries [] := .init (by decide) (by decide)
  have hadded := hsent.added _ hf _ hempty
  obtain ⟨new, hnew, hread⟩ := (hrt r t h hr (.client c)).2 hf _ hempty
  rw [List.nil_append] at hnew hadded
  rw [← List.append_nil new] at hnew
  rw [← List.append_nil (pack _ _ _).bytes] at hadded
  have hlen := pack_size (count - 4) 0 fun i => buf (4 + i)
  obtain ⟨t₁, h₁, -⟩ := hread t [] hsent.server hnew
  obtain ⟨t₂, h₂⟩ := recv_long hadded hlen (by rw [← hlen]; exact hlong)
    (by rw [← hlen]; exact BitVec.le_def.mp hs)
  have hrecv : receive (.client c) t = recv c t := rfl
  rw [hrecv, h₂] at h₁
  cases h₁

/-- `pkx_reply` sends as many bytes as a package can have. -/
theorem not_roundTrip_pkxReply (hs : size ≠ 1024) :
    ¬ RoundTrip (.pkxReply c size buf) (.alone p) := by
  intro hrt
  have hle : ¬ maxPacketSize < maxPacketDataSize := by decide
  have hempty : ((State.alone p).msgList (.server p)).Carries [] := .init (by decide) (by decide)
  obtain ⟨t, ht⟩ := put_alone (f := .server p) (p := p) (BitVec.le_refl 1024) c buf
  have h : writeClient c buf maxPacketDataSize (.alone p) = .ok (maxPacketDataSize, t) := by
    unfold writeClient
    rw [if_neg hle, bind_ok (get_apply _)]
    unfold sendToServer
    exact bind_ok ht
  have hsent := sent_writeClient (BitVec.le_refl 1024) h
  have hf : File.server p ∈ Send.targets (.alone p) (.pkxReply c size buf) :=
    List.mem_singleton.mpr rfl
  have hadded := hsent.added _ hf _ hempty
  obtain ⟨new, hnew, hread⟩ := (hrt _ t h (by decide) (.server p)).2 hf _ hempty
  rw [List.nil_append] at hnew hadded
  rw [← List.append_nil new] at hnew
  rw [← List.append_nil (pack _ _ _).bytes] at hadded
  have hlen := pack_size 1024 c buf
  obtain ⟨t₁, h₁, -⟩ := hread t [] hsent.server hnew
  obtain ⟨t₂, h₂, -⟩ := listen_front hadded hlen (hlen ▸ Nat.le_refl 1024)
  have hrecv : receive (.server p) t = listen p t := rfl
  rw [hrecv, h₂] at h₁
  -- the reader sees the size of the package
  injection h₁ with h₁
  injection h₁ with h₁
  injection h₁ with h₁
  injection h₁ with h₁
  exact hs h₁.symm

/-- Where the two ends agree. -/
def Send.Fits : Send → Prop
  | pkxSend _ _ size _ => size.toNat ≤ 1016
  | writeServer _ _ count => (count - 4).toNat ≤ 1016
  | pkxReply _ size _ => size = 1024
  | writeClient _ _ _ => True

/-- A package comes through exactly where its size leaves room for a header in the buffer of
`pkx_recv` or is the one that `pkx_reply` sends. -/
theorem roundTrip_exact {o : Send} (hs : o.size ≤ maxPacketDataSize) :
    (∀ s, Sound s → RoundTrip o s) ↔ o.Fits := by
  cases o with
  | pkxSend p rcpt size blob =>
    have hs' : size ≤ 1024 := hs
    have hsize : (4 + size : BitVec 32) - 4 = size := by
      rw [BitVec.add_comm]
      exact BitVec.add_sub_cancel ..
    constructor
    · intro h
      apply Nat.le_of_not_lt
      intro hlong
      have hrt := (roundTrip_pkxSend hs').mp (h _ (alone_sound p))
      exact not_roundTrip_writeServer (by rwa [hsize]) (by rwa [hsize]) hrt
    · intro h s hS
      apply (roundTrip_pkxSend hs').mpr
      exact roundTrip_writeServer hS (by rwa [hsize])
  | writeServer p buf count =>
    constructor
    · intro h
      apply Nat.le_of_not_lt
      intro hlong
      exact not_roundTrip_writeServer hlong hs (h _ (alone_sound p))
    · intro h s hS
      exact roundTrip_writeServer hS h
  | pkxReply c size blob =>
    constructor
    · intro h
      by_contra hne
      exact not_roundTrip_pkxReply hne (h _ (alone_sound 0))
    · rintro rfl s hS
      exact roundTrip_writeClient (by decide)
  | writeClient c buf count =>
    exact ⟨fun _ => trivial, fun _ s _ => roundTrip_writeClient hs⟩

end Lemmas

theorem roundTrip_exact_reply : (∀ s, Sound s → RoundTrip (.pkxReply 1 1024 fun _ => 7) s) ↔
    Send.Fits (.pkxReply 1 1024 fun _ => 7) := roundTrip_exact (by decide)

/-- The longest package of a server is refused, and the reader of a short reply sees 1024 bytes. -/
theorem not_every_package : Sound (.alone 2) ∧
    ¬ RoundTrip (.pkxSend 2 1 1024 fun _ => 7) (.alone 2) ∧
    ¬ RoundTrip (.pkxReply 1 5 fun _ => 7) (.alone 2) := by
  refine ⟨alone_sound 2, fun h => ?_, not_roundTrip_pkxReply (by decide)⟩
  have hrt := (roundTrip_pkxSend (by decide)).mp h
  exact not_roundTrip_writeServer (by decide) (by decide) hrt

end Frog.PackageFs
