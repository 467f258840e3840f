import Frog.Device.Ide

/-!
# The accesses of a call

What the registers select, and what a call of `ide_read` or `ide_write` has done after some rounds
of its loop.
-/

namespace Frog.Ide

set_option autoImplicit false
open Bytes

/-! ## The registers -/

/-- The registers name one sector of a disk. -/
structure Drive.Selected (d : Drive) (slave : Bool) (lba : Nat) : Prop where
  idle : d.phase = .idle
  cnt : d.sectCnt = 1
  mode : d.dev &&& BIT_DEV_LBA ≠ 0
  slave : d.slave = slave
  lba : d.lba = lba

section Registers
variable {d : Drive} {r : Reg} {b : Byte} {slave : Bool} {lba : Lba} {n : Nat}

@[simp] theorem outb_media : (d.outb r b).media = d.media := by
  unfold Drive.outb
  split <;> rfl

theorem outb_idle (h : d.phase = .idle) (hr : r ≠ .cmd) : (d.outb r b).phase = .idle := by
  unfold Drive.outb
  rw [h]
  cases r with
  | cmd => exact absurd rfl hr
  | _ => rfl

theorem device_slave : ∀ slave : Bool, (device slave &&& BIT_DEV_DEV != 0) = slave ∧
    device slave &&& BIT_DEV_LBA ≠ 0 ∧ (device slave &&& 0x0f).toNat = 0 := by decide

/-- The number of a sector comes back from its bytes. -/
theorem selected_outs (h : d.phase = .idle) (hl : lba ≤ maxLba) :
    ((selectSector slave lba).foldl (fun d w => d.outb w.1 w.2) d).Selected slave lba.toNat := by
  have hlt : lba.toNat ≤ 163839 := hl
  have htop : (lba >>> 24).setWidth 8 = 0#8 := by
    apply BitVec.eq_of_toNat_eq
    simp only [BitVec.toNat_setWidth, BitVec.toNat_ushiftRight, Nat.shiftRight_eq_div_pow]
    have : lba.toNat / 2 ^ 24 = 0 := Nat.div_eq_of_lt (by omega)
    rw [this]
    rfl
  obtain ⟨hs, hm, hz⟩ := device_slave slave
  cases d with
  | mk sectCnt lbaL lbaM lbaH dev phase media =>
    cases h
    refine ⟨rfl, rfl, ?_, ?_, ?_⟩
    · simp only [selectSector, List.foldl, Drive.outb, htop, BitVec.or_zero]
      exact hm
    · simp only [selectSector, List.foldl, Drive.outb, Drive.slave, htop, BitVec.or_zero]
      exact hs
    · simp only [selectSector, List.foldl, Drive.outb, Drive.lba, htop, BitVec.or_zero, hz,
        BitVec.toNat_setWidth, BitVec.toNat_ushiftRight, Nat.shiftRight_eq_div_pow]
      omega

theorem command_read (h : d.Selected slave n) : d.command CMD_READ_SECTOR = .reading slave n := by
  unfold Drive.command
  rw [if_pos ⟨h.cnt, h.mode⟩, if_pos rfl, h.slave, h.lba]

theorem command_write (h : d.Selected slave n) : d.command CMD_WRITE_SECTOR = .preparing slave n := by
  unfold Drive.command
  rw [if_pos ⟨h.cnt, h.mode⟩, if_neg (by decide), if_pos rfl, h.slave, h.lba]

end Registers

/-! ## What a call has done -/

/-- The buffer after the accesses from the sector number `k` on. -/
def fillFrom (b : Store) : Nat → List Access → Store
  | _, [] => b
  | k, e :: es =>
    fillFrom (match e.data with
      | some d => patch b (512 * k) 512 d
      | none => b) (k + 1) es

/-- Access `i` of a call. -/
structure Access.Of (e : Access) (t : Tid) (c : Call) (i : Nat) : Prop where
  tid : e.tid = t
  write : e.write = c.write
  slave : e.slave = c.slave
  lba : e.lba = c.lba.toNat + i
  near : e.lba ≤ maxLba.toNat
  data : c.write = true → ∀ d, e.data = some d → ∀ j, j < 512 → d j = c.buf (512 * i + j)

/-- The accesses of a call are those of its first `n` sectors. -/
structure Made (t : Tid) (c : Call) (n : Nat) : Prop where
  length : c.accesses.length = n
  each : ∀ i (e : Access), c.accesses[i]? = some e → e.Of t c i

def Call.filled (c : Call) : Store := if c.write then c.buf else fillFrom c.buf 0 c.accesses

structure Plain (t : Tid) (c : Call) (n : Nat) (b : Store) : Prop where
  made : Made t c n
  buf : b = c.filled

/-- The variables of the loop after `k` rounds. -/
structure Round (c : Call) (k : Nat) : Prop where
  pos : 0 < c.secCnt
  lba : c.curLba.toNat = c.lba.toNat + k
  cnt : c.curCnt + k = c.secCnt
  cursor : c.cursor = 512 * k

/-- The accesses of a call are in the log since the call. -/
structure Logged (c : Call) (log : List Access) : Prop where
  start : c.start ≤ log.length
  sub : c.accesses.Sublist (log.drop c.start)

/-- What a call that came back did: one access for each sector, in their order and while it ran. -/
structure Done.Served (x : Done) (log : List Access) : Prop where
  pos : 0 < x.call.secCnt
  made : Made x.tid x.call x.call.secCnt
  buf : x.buf = x.call.filled
  start : x.call.start ≤ x.stop
  stop : x.stop ≤ log.length
  sub : x.call.accesses.Sublist ((log.take x.stop).drop x.call.start)

section Calls
variable {t : Tid} {c : Call} {b src : Store} {n k : Nat} {e : Access} {log : List Access} {x : Done}

theorem fillFrom_snoc (es : List Access) : fillFrom b k (es ++ [e]) =
    match e.data with
    | some d => patch (fillFrom b k es) (512 * (k + es.length)) 512 d
    | none => fillFrom b k es := by
  induction es generalizing b k with
  | nil => cases h : e.data <;> simp [fillFrom, h]
  | cons e' es ih =>
    simp only [List.cons_append, fillFrom, ih, List.length_cons]
    rw [show k + 1 + es.length = k + (es.length + 1) by omega]

/-- The arguments of the call decide what its accesses are. -/
theorem Access.Of.congr {c' : Call} (h : e.Of t c n) (hw : c'.write = c.write)
    (hs : c'.slave = c.slave) (hl : c'.lba = c.lba) (hb : c'.buf = c.buf) : e.Of t c' n :=
  ⟨h.tid, h.write.trans hw.symm, h.slave.trans hs.symm, by rw [hl]; exact h.lba, h.near,
    by rw [hw, hb]; exact h.data⟩

theorem Made.snoc (h : Made t c n) (he : e.Of t c n) :
    Made t { c with accesses := c.accesses ++ [e] } (n + 1) := by
  refine ⟨by simp [h.length], fun i e' hi => ?_⟩
  rcases Nat.lt_or_ge i c.accesses.length with hlt | hge
  · rw [List.getElem?_append_left hlt] at hi
    exact (h.each i e' hi).congr rfl rfl rfl rfl
  · rw [List.getElem?_append_right hge] at hi
    obtain ⟨hz, rfl⟩ : i - c.accesses.length = 0 ∧ e' = e := by
      cases hz : i - c.accesses.length with
      | zero => exact ⟨rfl, by simpa [hz] using hi.symm⟩
      | succ _ => simp [hz] at hi
    have hin : i = n := by rw [← h.length]; omega
    subst hin
    exact he.congr rfl rfl rfl rfl

theorem Plain.snoc (h : Plain t c n b) (he : e.Of t c n) (hd : c.write = true ∨ e.data = none) :
    Plain t { c with accesses := c.accesses ++ [e] } (n + 1) b := by
  refine ⟨h.made.snoc he, ?_⟩
  rw [h.buf]
  unfold Call.filled
  rcases hd with hd | hd
  · simp only [hd, if_true]
  · simp only [fillFrom_snoc, hd]

theorem Logged.mono (h : Logged c log) : Logged c (log ++ [e]) := by
  refine ⟨by simp only [List.length_append]; have := h.start; omega, ?_⟩
  rw [List.drop_append_of_le_length h.start]
  exact h.sub.trans (List.sublist_append_left _ _)

theorem Logged.snoc (h : Logged c log) :
    Logged { c with accesses := c.accesses ++ [e] } (log ++ [e]) := by
  refine ⟨by simp only [List.length_append]; have := h.start; omega, ?_⟩
  change (c.accesses ++ [e]).Sublist ((log ++ [e]).drop c.start)
  rw [List.drop_append_of_le_length h.start]
  exact h.sub.append (List.Sublist.refl _)

theorem Done.Served.mono (h : x.Served log) : x.Served (log ++ [e]) := by
  refine ⟨h.pos, h.made, h.buf, h.start, by simp only [List.length_append]; have := h.stop; omega, ?_⟩
  rw [List.take_append_of_le_length h.stop]
  exact h.sub

theorem Round.advance (h : Round c k) (hn : c.curLba ≤ maxLba) (h0 : c.curCnt ≠ 0) :
    Round c.advance (k + 1) := by
  have hle : c.curLba.toNat ≤ 163839 := hn
  refine ⟨h.pos, ?_, ?_, ?_⟩
  · change (c.curLba + 1).toNat = _
    rw [BitVec.toNat_add, h.lba]
    change (c.lba.toNat + k + 1) % 2 ^ 32 = c.lba.toNat + (k + 1)
    have := h.lba
    omega
  · change c.curCnt - 1 + (k + 1) = c.secCnt
    have := h.cnt
    omega
  · change c.cursor + 512 = 512 * (k + 1)
    rw [h.cursor]
    omega

end Calls

end Frog.Ide
