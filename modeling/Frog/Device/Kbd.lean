import Frog.Device.Reader
import Frog.Lib.Prog
import Mathlib.Data.Fintype.Basic

/-!
# The keyboard

`handle_keyboard_event` and `read_kbd` in `core/device/pc_kbd.c`, beside a decoder that keeps the
modifier keys that are down. Interrupts come between any two steps of a reader, and a blocked reader
may be woken at any time.
-/

set_option autoImplicit false

namespace Frog.Device.Keyboard

open Prog

abbrev Code := BitVec 16

/-! ## The key map -/

def FLAG_EXT : Code := 0x00e0
def MAKE_SHIFT_L : Code := 0x002a
def MAKE_SHIFT_R : Code := 0x0036
def MAKE_CTRL_L : Code := 0x001d
def MAKE_CTRL_R : Code := 0xe01d
def MAKE_ALT_L : Code := 0x0038
def MAKE_ALT_R : Code := 0xe038
def MAKE_CAP_LOCK : Code := 0x003a
def MAKE_META_L : Code := 0xe05b
def MAKE_META_R : Code := 0xe05c

/-- The rows of `keymap`, without and with shift; the rows that are not here are zero. -/
def keymapRows : List (Byte × Byte) := [
  -- none, escape, the digits, minus, equals, backspace
  (0, 0), (0x1b, 0x1b), (0x31, 0x21), (0x32, 0x40), (0x33, 0x23), (0x34, 0x24), (0x35, 0x25),
  (0x36, 0x5e), (0x37, 0x26), (0x38, 0x2a), (0x39, 0x28), (0x30, 0x29), (0x2d, 0x5f),
  (0x3d, 0x2b), (0x08, 0x08),
  -- tab, the upper row of letters, the square brackets, enter
  (0x09, 0x09), (0x71, 0x51), (0x77, 0x57), (0x65, 0x45), (0x72, 0x52), (0x74, 0x54),
  (0x79, 0x59), (0x75, 0x55), (0x69, 0x49), (0x6f, 0x4f), (0x70, 0x50), (0x5b, 0x7b),
  (0x5d, 0x7d), (0x0d, 0x0d),
  -- left control, the middle row of letters, semicolon, quote, backquote
  (0, 0), (0x61, 0x41), (0x73, 0x53), (0x64, 0x44), (0x66, 0x46), (0x67, 0x47), (0x68, 0x48),
  (0x6a, 0x4a), (0x6b, 0x4b), (0x6c, 0x4c), (0x3b, 0x3a), (0x27, 0x22), (0x60, 0x7e),
  -- left shift, backslash, the lower row of letters, comma, full stop, slash
  (0, 0), (0x5c, 0x7c), (0x7a, 0x5a), (0x78, 0x58), (0x63, 0x43), (0x76, 0x56), (0x62, 0x42),
  (0x6e, 0x4e), (0x6d, 0x4d), (0x2c, 0x3c), (0x2e, 0x3e), (0x2f, 0x3f),
  -- right shift, asterisk, alt, space, caps lock
  (0, 0), (0x2a, 0x2a), (0, 0), (0x20, 0x20), (0, 0)]

def keymap (index : Nat) (shift : Bool) : Byte :=
  let row := keymapRows.getD index (0, 0)
  if shift then row.2 else row.1

/-! ## The interrupt handler -/

def KBD_BUF_SIZE : Nat := 2048

structure Kbd where
  ctrlStatus : Bool
  shiftStatus : Bool
  altStatus : Bool
  capsLockStatus : Bool
  metaStatus : Bool
  extScancode : Bool
  queue : MaskQueue Byte

/-- `PANIC` -/
inductive Fault where
  | panic
  deriving DecidableEq

abbrev M := Prog Fault Kbd

/-- The keys whose second character comes with shift alone. -/
def isSymbol (scanCode : Code) : Bool :=
  (0x02 ≤ scanCode && scanCode < 0x0e) || scanCode = 0x1a || scanCode = 0x1b || scanCode = 0x27 ||
    scanCode = 0x28 || scanCode = 0x29 || scanCode = 0x2b || scanCode = 0x33 || scanCode = 0x34 ||
    scanCode = 0x35

def shifted (scanCode : Code) (shiftPressed capLockPressed : Bool) : Bool :=
  if isSymbol scanCode then shiftPressed
  else if shiftPressed && capLockPressed then false
  else shiftPressed || capLockPressed

/-- The codes of keys that the handler knows. -/
def isKnown (scanCode : Code) : Bool :=
  (0x00 < scanCode && scanCode < 0x3b) || (scanCode = MAKE_ALT_R || scanCode = MAKE_CTRL_R) ||
    (scanCode = MAKE_META_L || scanCode = MAKE_META_R)

def breakKey (makeCode : Code) (s : Kbd) : Kbd :=
  if makeCode = MAKE_CTRL_R ∨ makeCode = MAKE_CTRL_L then { s with ctrlStatus := false }
  else if makeCode = MAKE_ALT_R ∨ makeCode = MAKE_ALT_L then { s with altStatus := false }
  else if makeCode = MAKE_SHIFT_R ∨ makeCode = MAKE_SHIFT_L then { s with shiftStatus := false }
  else s

def keyOf (scanCode : Code) (s : Kbd) : Byte :=
  keymap (scanCode &&& 0x00ff).toNat (shifted scanCode s.shiftStatus s.capsLockStatus)

def makeKey (scanCode : Code) (s : Kbd) : Kbd :=
  let key := keyOf scanCode s
  if key ≠ 0 then { s with queue := s.queue.put KBD_BUF_SIZE 1 key }
  else if scanCode = MAKE_CTRL_L ∨ scanCode = MAKE_CTRL_R then { s with ctrlStatus := true }
  else if scanCode = MAKE_ALT_L ∨ scanCode = MAKE_ALT_R then { s with altStatus := true }
  else if scanCode = MAKE_SHIFT_L ∨ scanCode = MAKE_SHIFT_R then { s with shiftStatus := true }
  else if scanCode = MAKE_CAP_LOCK then { s with capsLockStatus := true }
  else if scanCode = MAKE_META_L ∨ scanCode = MAKE_META_R then { s with metaStatus := true }
  else s

/-- A code with its prefix. -/
def withExt (ext : Bool) (scanCode : Code) : Code := if ext then 0xe000 ||| scanCode else scanCode

def handleKeyboardEvent (scanCode : Code) : M Unit := do
  if scanCode = FLAG_EXT then modify fun s => { s with extScancode := true }
  else
    let s ← get
    let scanCode := withExt s.extScancode scanCode
    modify fun s => { s with extScancode := false }
    if scanCode &&& 0x0080 ≠ 0 then modify (breakKey (scanCode &&& 0xff7f))
    else if isKnown scanCode then modify (makeKey scanCode)
    else check (scanCode = 0) .panic

/-! ## The keyboard and its readers -/

/-- `typed` has the bytes of all interrupts so far. -/
structure Sys where
  kbd : Kbd
  place : Nat → Place Byte
  typed : List Byte

/-- The queue of `pc_kbd_init`, and no key pressed. -/
def Sys.init : Sys :=
  ⟨⟨false, false, false, false, false, false, ⟨0, 0, fun _ => 0⟩⟩, fun _ => .outside, []⟩

def Sys.readers (s : Sys) : Readers Byte := ⟨s.kbd.queue, s.place⟩

/-- A reader of the keyboard goes on whenever it is woken. -/
inductive Step : Sys → Label Byte → Sys → Prop
  | scan {s : Sys} {b : Byte} {k : Kbd} :
    handleKeyboardEvent (b.setWidth 16) s.kbd = .ok ((), k) →
    Step s (.scan b) { s with kbd := k, typed := s.typed ++ [b] }
  | read {s : Sys} {l : Label Byte} {r : Readers Byte} :
    ReadStep KBD_BUF_SIZE 1 true s.readers l r →
    Step s l { s with kbd := { s.kbd with queue := r.queue }, place := r.place }

/-! ## The reference decoder -/

/-- A key: whether its codes are prefixed, and its make code. -/
structure Key where
  ext : Bool
  code : Byte
  deriving DecidableEq

inductive Modifier where
  | shift | ctrl | alt | metaKey
  deriving DecidableEq

def Key.modifier (k : Key) : Option Modifier :=
  if k = ⟨false, 0x2a⟩ ∨ k = ⟨false, 0x36⟩ then some .shift
  else if k = ⟨false, 0x1d⟩ ∨ k = ⟨true, 0x1d⟩ then some .ctrl
  else if k = ⟨false, 0x38⟩ ∨ k = ⟨true, 0x38⟩ then some .alt
  else if k = ⟨true, 0x5b⟩ ∨ k = ⟨true, 0x5c⟩ then some .metaKey
  else none

def Key.capsLock : Key := ⟨false, 0x3a⟩

def Key.isLetter (k : Key) : Bool :=
  !k.ext && ((0x10 ≤ k.code && k.code ≤ 0x19) || (0x1e ≤ k.code && k.code ≤ 0x26) ||
    (0x2c ≤ k.code && k.code ≤ 0x32))

/-- `held` has the modifier keys that are down, `ext` is set behind a prefix. -/
structure Decoder where
  held : List Key
  caps : Bool
  ext : Bool

def Decoder.init : Decoder := ⟨[], false, false⟩

def Decoder.isOn (d : Decoder) (m : Modifier) : Bool := d.held.any fun k => k.modifier = some m

/-- The character of a key; letters take caps lock into account. -/
def Decoder.char (d : Decoder) (k : Key) : Option Byte :=
  let c := keymap k.code.toNat (if k.isLetter then d.isOn .shift ^^ d.caps else d.isOn .shift)
  if k.ext ∨ c = 0 then none else some c

/-- The key that a code belongs to. -/
def Decoder.key (d : Decoder) (b : Byte) : Key := ⟨d.ext, b &&& 0x7f⟩

def Decoder.press (d : Decoder) (k : Key) : Decoder × Option Byte :=
  if k.modifier ≠ none then ({ d with held := k :: d.held }, none)
  else if k = .capsLock then ({ d with caps := !d.caps }, none)
  else (d, d.char k)

def Decoder.release (d : Decoder) (k : Key) : Decoder :=
  { d with held := d.held.filter fun k' => k' ≠ k }

def Decoder.next (d : Decoder) (b : Byte) : Decoder × Option Byte :=
  if b = 0xe0 then ({ d with ext := true }, none)
  else if b &&& 0x80 ≠ 0 then (Decoder.release { d with ext := false } (d.key b), none)
  else Decoder.press { d with ext := false } (d.key b)

def decode (bs : List Byte) : Decoder := bs.foldl (fun d b => (d.next b).1) .init

/-! ## The keyboard as it should be -/

/-- A queue of at most 2047 characters, and what each reader has. -/
structure Ideal where
  decoder : Decoder
  feed : Feed Byte

inductive IdealStep : Ideal → Label Byte → Ideal → Prop
  | scan {i : Ideal} {b : Byte} : IdealStep i (.scan b) ⟨(i.decoder.next b).1,
    { i.feed with queued := offer KBD_BUF_SIZE (i.decoder.next b).2 i.feed.queued }⟩
  | read {i : Ideal} {l : Label Byte} {f : Feed Byte} : FeedStep 1 i.feed l f →
    IdealStep i l { i with feed := f }

def Ideal.init : Ideal := ⟨.init, [], fun _ => [], fun _ => 0⟩

/-! ## The condition -/

/-- A code for which the handler does what the decoder does: a key that it knows, caps lock only
where it is off, the release of a shift, control or alt key only with no other one down, and the
release of a meta key only where this leaves another one or where none was down. -/
def Decoder.Typed (d : Decoder) (b : Byte) : Prop :=
  if b = 0xe0 then True
  else if b &&& 0x80 ≠ 0 then
    match (d.key b).modifier with
    | some .metaKey => (d.release (d.key b)).isOn .metaKey = d.isOn .metaKey
    | some m => (d.release (d.key b)).isOn m = false
    | none => True
  else ((d.key b).modifier ≠ none ∨ (d.ext = false ∧ b < 0x3b)) ∧
    (d.key b = .capsLock → d.caps = false)

/-- Whether a step meets the condition. -/
def Sys.Typed (s : Sys) : Label Byte → Prop
  | .scan b => (decode s.typed).Typed b
  | _ => True

/-! ## The codes of the keys -/

def Kbd.status (s : Kbd) : Modifier → Bool
  | .shift => s.shiftStatus
  | .ctrl => s.ctrlStatus
  | .alt => s.altStatus
  | .metaKey => s.metaStatus

def Kbd.setStatus (s : Kbd) (m : Modifier) (v : Bool) : Kbd :=
  match m with
  | .shift => { s with shiftStatus := v }
  | .ctrl => { s with ctrlStatus := v }
  | .alt => { s with altStatus := v }
  | .metaKey => { s with metaStatus := v }

section Codes
variable {s : Kbd} {m m' : Modifier} {v : Bool}

theorem status_setStatus : (s.setStatus m v).status m' = if m' = m then v else s.status m' := by
  cases m <;> cases m' <;> rfl

@[simp] theorem setStatus_caps : (s.setStatus m v).capsLockStatus = s.capsLockStatus := by
  cases m <;> rfl

@[simp] theorem setStatus_ext : (s.setStatus m v).extScancode = s.extScancode := by
  cases m <;> rfl

@[simp] theorem setStatus_queue : (s.setStatus m v).queue = s.queue := by
  cases m <;> rfl

theorem setWidth_eq_ext (b : Byte) : b.setWidth 16 = FLAG_EXT ↔ b = 0xe0 := by
  unfold FLAG_EXT
  constructor <;> intro h <;> bv_omega

theorem code_cases : ∀ (ext : Bool) (b : Byte),
    let c := withExt ext (b.setWidth 16)
    let k := Key.mk ext (b &&& 0x7f)
    (c &&& 0x0080 ≠ 0 ↔ b &&& 0x80 ≠ 0) ∧ (b &&& 0x80 = 0 →
      (isKnown c = true ∨ c = 0 ↔ k.modifier ≠ none ∨ (ext = false ∧ b < 0x3b)) ∧
      (c = 0 → isKnown c = false ∧ k = ⟨false, 0⟩)) := by decide +kernel

/-- The bit of a break code is in the last byte. -/
theorem break_iff (ext : Bool) (b : Byte) :
    withExt ext (b.setWidth 16) &&& 0x0080 ≠ 0 ↔ b &&& 0x80 ≠ 0 := And.left (code_cases ext b)

/-- The handler knows the modifier keys but the meta keys by their break codes. -/
theorem break_modifier (ext : Bool) (b : Byte) (s : Kbd) (hb : b &&& 0x80 ≠ 0) :
    breakKey (withExt ext (b.setWidth 16) &&& 0xff7f) s =
      match (Key.mk ext (b &&& 0x7f)).modifier with
      | some .metaKey | none => s
      | some m => s.setStatus m false := by
  have h : ∀ (ext : Bool) (b : Byte), b &&& 0x80 ≠ 0 →
      let c := withExt ext (b.setWidth 16) &&& 0xff7f
      let m := (Key.mk ext (b &&& 0x7f)).modifier
      ((c = MAKE_CTRL_R ∨ c = MAKE_CTRL_L) ↔ m = some .ctrl) ∧
        ((c = MAKE_ALT_R ∨ c = MAKE_ALT_L) ↔ m = some .alt) ∧
        ((c = MAKE_SHIFT_R ∨ c = MAKE_SHIFT_L) ↔ m = some .shift) := by decide +kernel
  obtain ⟨h1, h2, h3⟩ := h ext b hb
  unfold breakKey
  simp only [h1, h2, h3]
  cases (Key.mk ext (b &&& 0x7f)).modifier with
  | none => rfl
  | some m => cases m <;> rfl

/-- The handler panics at a key that it does not know. -/
theorem known_iff (ext : Bool) (b : Byte) (hb : b &&& 0x80 = 0) :
    isKnown (withExt ext (b.setWidth 16)) = true ∨ withExt ext (b.setWidth 16) = 0 ↔
      (Key.mk ext (b &&& 0x7f)).modifier ≠ none ∨ (ext = false ∧ b < 0x3b) :=
  And.left (And.right (code_cases ext b) hb)

theorem not_known (ext : Bool) (b : Byte) (hb : b &&& 0x80 = 0)
    (h : withExt ext (b.setWidth 16) = 0) :
    isKnown (withExt ext (b.setWidth 16)) = false ∧ Key.mk ext (b &&& 0x7f) = ⟨false, 0⟩ :=
  And.right (And.right (code_cases ext b) hb) h

/-- What the key map has for a key that the handler knows. -/
theorem keymap_eq : ∀ (ext : Bool) (b : Byte) (shift caps : Bool), b &&& 0x80 = 0 →
    isKnown (withExt ext (b.setWidth 16)) = true →
    let c := withExt ext (b.setWidth 16)
    let k := Key.mk ext (b &&& 0x7f)
    let key := keymap (c &&& 0x00ff).toNat (shifted c shift caps)
    if k.modifier ≠ none ∨ k = .capsLock then key = 0
    else key ≠ 0 ∧ k.ext = false ∧
      key = keymap k.code.toNat (if k.isLetter then shift ^^ caps else shift) := by
  decide +kernel

theorem make_modifier (ext : Bool) (b : Byte) (s : Kbd) (hb : b &&& 0x80 = 0)
    (hk : isKnown (withExt ext (b.setWidth 16)) = true) :
    makeKey (withExt ext (b.setWidth 16)) s =
      match (Key.mk ext (b &&& 0x7f)).modifier with
      | some m => s.setStatus m true
      | none =>
        if Key.mk ext (b &&& 0x7f) = .capsLock then { s with capsLockStatus := true }
        else { s with
          queue := s.queue.put KBD_BUF_SIZE 1 (keyOf (withExt ext (b.setWidth 16)) s) } := by
  have h : ∀ (ext : Bool) (b : Byte), b &&& 0x80 = 0 →
      isKnown (withExt ext (b.setWidth 16)) = true →
      let c := withExt ext (b.setWidth 16)
      let k := Key.mk ext (b &&& 0x7f)
      ((c = MAKE_CTRL_L ∨ c = MAKE_CTRL_R) ↔ k.modifier = some .ctrl) ∧
        ((c = MAKE_ALT_L ∨ c = MAKE_ALT_R) ↔ k.modifier = some .alt) ∧
        ((c = MAKE_SHIFT_L ∨ c = MAKE_SHIFT_R) ↔ k.modifier = some .shift) ∧
        (c = MAKE_CAP_LOCK ↔ k = .capsLock) ∧
        ((c = MAKE_META_L ∨ c = MAKE_META_R) ↔ k.modifier = some .metaKey) ∧
        (k.modifier ≠ none → k ≠ .capsLock) := by decide +kernel
  obtain ⟨h1, h2, h3, h4, h5, h6⟩ := h ext b hb hk
  have hkey := keymap_eq ext b s.shiftStatus s.capsLockStatus hb hk
  change let k := Key.mk ext (b &&& 0x7f)
    if k.modifier ≠ none ∨ k = .capsLock then keyOf (withExt ext (b.setWidth 16)) s = 0
    else keyOf (withExt ext (b.setWidth 16)) s ≠ 0 ∧ _ at hkey
  clear h
  generalize Key.mk ext (b &&& 0x7f) = k at *
  generalize withExt ext (b.setWidth 16) = c at *
  unfold makeKey
  simp only at h1 h2 h3 h4 h5 hkey
  simp only [h1, h2, h3, h4, h5]
  cases hm : k.modifier with
  | none =>
    by_cases hc : k = .capsLock
    · rw [if_pos (.inr hc)] at hkey
      simp [hkey, hc]
    · rw [if_neg (by simp [hc, hm])] at hkey
      exact (if_pos hkey.1).trans (if_neg hc).symm
  | some m =>
    have hne := h6 (by simp [hm])
    rw [if_pos (.inl (by simp [hm]))] at hkey
    cases m <;> simp [hkey, hne, Kbd.setStatus]

end Codes

/-! ## One byte -/

/-- The status flags are those of the decoder. -/
structure Matches (s : Kbd) (d : Decoder) : Prop where
  status : ∀ m, s.status m = d.isOn m
  caps : s.capsLockStatus = d.caps
  ext : s.extScancode = d.ext

section Decoder
variable {d : Decoder} {k : Key} {m : Modifier} {s : Kbd} {xs : List Byte} {b : Byte} {v : Bool}

theorem isOn_cons : Decoder.isOn { d with held := k :: d.held } m =
    (decide (k.modifier = some m) || d.isOn m) := rfl

theorem isOn_release (h : k.modifier ≠ some m) : (d.release k).isOn m = d.isOn m := by
  rw [Decoder.isOn, Decoder.isOn, Decoder.release, List.any_filter]
  refine List.any_congr rfl fun k' => ?_
  by_cases hk : k' = k
  · subst hk
    simp [h]
  · simp [hk]

/-- One status changes as the decoder has it. -/
theorem Matches.setStatus {d' : Decoder} (h : Matches s d) (hm : d'.isOn m = v)
    (ho : ∀ m', m' ≠ m → d'.isOn m' = d.isOn m') (hc : d'.caps = d.caps) (he : d'.ext = d.ext) :
    Matches (s.setStatus m v) d' := by
  refine ⟨fun m' => ?_, ?_, ?_⟩
  · rw [status_setStatus]
    by_cases hm' : m' = m
    · rw [if_pos hm', hm', hm]
    · rw [if_neg hm', ho m' hm', h.status]
  · rw [setStatus_caps, hc, h.caps]
  · rw [setStatus_ext, he, h.ext]

theorem Matches.release (h : Matches s d)
    (ht : match k.modifier with
      | some .metaKey => (d.release k).isOn .metaKey = d.isOn .metaKey
      | some m => (d.release k).isOn m = false
      | none => True) :
    Matches (match k.modifier with
      | some .metaKey | none => s
      | some m => s.setStatus m false) (d.release k) := by
  have hother : ∀ m, k.modifier ≠ some m → (d.release k).isOn m = d.isOn m := fun _ =>
    isOn_release
  cases hk : k.modifier with
  | none =>
    refine ⟨fun m => ?_, h.caps, h.ext⟩
    rw [hother m (by simp [hk]), h.status]
  | some m =>
    rw [hk] at ht hother
    have hset : (d.release k).isOn m = false → Matches (s.setStatus m false) (d.release k) :=
      fun hm => h.setStatus hm (fun m' hm' => hother m' fun he => hm' (Option.some.inj he).symm)
        rfl rfl
    cases m with
    | metaKey =>
      refine ⟨fun m => ?_, h.caps, h.ext⟩
      by_cases hm : m = .metaKey
      · rw [hm, ht, h.status]
      · rw [hother m fun he => hm (Option.some.inj he).symm, h.status]
    | shift => exact hset ht
    | ctrl => exact hset ht
    | alt => exact hset ht

theorem Matches.press (h : Matches s d) (hm : k.modifier = some m) :
    Matches (s.setStatus m true) (d.press k).1 := by
  have hne : k.modifier ≠ none := by simp [hm]
  rw [Decoder.press, if_pos hne]
  refine h.setStatus ?_ (fun m' hm' => ?_) rfl rfl
  · rw [isOn_cons, hm]
    simp
  · rw [isOn_cons, hm]
    simp [hm'.symm]

theorem Matches.caps_on (h : Matches s d) (hc : d.caps = false) :
    Matches { s with capsLockStatus := true } (d.press .capsLock).1 :=
  ⟨h.status, by rw [show (d.press .capsLock).1.caps = !d.caps from rfl, hc]; rfl, h.ext⟩

theorem Matches.setQueue (h : Matches s d) (q : MaskQueue Byte) :
    Matches { s with queue := q } d := ⟨h.status, h.caps, h.ext⟩

/-- A known key does what the decoder does. -/
theorem make_known {ext : Bool} (h : Matches s d) (hq : s.queue.Holds KBD_BUF_SIZE 1 xs)
    (hb : b &&& 0x80 = 0) (hk : isKnown (withExt ext (b.setWidth 16)) = true)
    (hcaps : Key.mk ext (b &&& 0x7f) = .capsLock → d.caps = false) :
    Matches (makeKey (withExt ext (b.setWidth 16)) s) (d.press ⟨ext, b &&& 0x7f⟩).1 ∧
      (makeKey (withExt ext (b.setWidth 16)) s).queue.Holds KBD_BUF_SIZE 1
        (offer KBD_BUF_SIZE (d.press ⟨ext, b &&& 0x7f⟩).2 xs) := by
  obtain ⟨k, hgen⟩ : ∃ k, k = Key.mk ext (b &&& 0x7f) := ⟨_, rfl⟩
  have hkey : if k.modifier ≠ none ∨ k = .capsLock then keyOf (withExt ext (b.setWidth 16)) s = 0
      else keyOf (withExt ext (b.setWidth 16)) s ≠ 0 ∧ k.ext = false ∧
        keyOf (withExt ext (b.setWidth 16)) s = keymap k.code.toNat
          (if k.isLetter then s.shiftStatus ^^ s.capsLockStatus else s.shiftStatus) := by
    rw [hgen]
    exact keymap_eq ext b s.shiftStatus s.capsLockStatus hb hk
  rw [make_modifier ext b s hb hk]
  rw [← hgen] at hcaps ⊢
  cases hm : k.modifier with
  | some m =>
    refine ⟨h.press hm, ?_⟩
    have hnone : (d.press k).2 = none := by
      rw [Decoder.press, if_pos (by simp [hm])]
    rw [hnone]
    simp only [setStatus_queue]
    exact hq
  | none =>
    by_cases hc : k = .capsLock
    · subst hc
      simp only [if_true]
      exact ⟨h.caps_on (hcaps rfl), hq⟩
    · rw [if_neg (by simp [hm, hc])] at hkey
      obtain ⟨h0, hext, heq⟩ := hkey
      have hpress : d.press k = (d, d.char k) := by
        rw [Decoder.press, if_neg (by simp [hm]), if_neg hc]
      have hshift : s.shiftStatus = d.isOn .shift := h.status .shift
      have hchar : d.char k = some (keyOf (withExt ext (b.setWidth 16)) s) := by
        rw [heq, hshift, h.caps] at h0
        rw [heq, hshift, h.caps, Decoder.char]
        refine if_neg ?_
        rintro (he | he)
        · rw [hext] at he
          cases he
        · exact h0 he
      simp only [hpress, hc, if_false]
      refine ⟨h.setQueue _, ?_⟩
      rw [hchar]
      exact hq.put

theorem press_zero (d : Decoder) : d.press ⟨false, 0⟩ = (d, none) := by
  have hzero : ∀ shift, keymap 0 shift = 0 := by decide
  have hchar : d.char ⟨false, 0⟩ = none := if_pos (.inr (hzero _))
  rw [← hchar]
  rfl

/-- The handler does what the decoder does with a code that meets the condition. -/
theorem handle_typed (h : Matches s d) (hq : s.queue.Holds KBD_BUF_SIZE 1 xs) (ht : d.Typed b) :
    ∃ t, handleKeyboardEvent (b.setWidth 16) s = .ok ((), t) ∧ Matches t (d.next b).1 ∧
      t.queue.Holds KBD_BUF_SIZE 1 (offer KBD_BUF_SIZE (d.next b).2 xs) := by
  have hclear : Matches { s with extScancode := false } { d with ext := false } :=
    ⟨h.status, h.caps, rfl⟩
  rw [Decoder.Typed] at ht
  rw [handleKeyboardEvent]
  by_cases h0 : b = 0xe0
  · rw [if_pos ((setWidth_eq_ext b).mpr h0), Decoder.next, if_pos h0]
    exact ⟨_, rfl, ⟨h.status, h.caps, rfl⟩, hq⟩
  rw [if_neg fun he => h0 ((setWidth_eq_ext b).mp he), Decoder.next, if_neg h0]
  rw [if_neg h0] at ht
  rw [bind_ok (get_apply s), h.ext, bind_ok (modify_apply _ s)]
  by_cases hb : b &&& 0x80 ≠ 0
  · rw [if_pos ((break_iff d.ext b).mpr hb), if_pos hb]
    rw [if_pos hb] at ht
    refine ⟨_, rfl, ?_⟩
    rw [break_modifier d.ext b _ hb]
    refine ⟨hclear.release ht, ?_⟩
    split
    · exact hq
    · exact hq
    · rw [setStatus_queue]
      exact hq
  · rw [if_neg (fun hc => hb ((break_iff d.ext b).mp hc)), if_neg hb]
    rw [if_neg hb] at ht
    have hb0 : b &&& 0x80 = 0 := not_not.mp hb
    by_cases hk : isKnown (withExt d.ext (b.setWidth 16)) = true
    · rw [if_pos hk]
      exact ⟨_, rfl, make_known hclear hq hb0 hk ht.2⟩
    · -- the only other code is zero
      have hz := ((known_iff d.ext b hb0).mpr ht.1).resolve_left hk
      obtain ⟨-, hkey⟩ := not_known d.ext b hb0 hz
      have hpress : Decoder.press { d with ext := false } (d.key b) =
          ({ d with ext := false }, none) := by
        rw [Decoder.key, hkey]
        exact press_zero _
      rw [if_neg hk, hpress]
      exact ⟨_, check_eq_ok.mpr ⟨hz, rfl⟩, hclear, hq⟩

end Decoder

/-! ## Runs -/

/-- Codes that meet the condition, and readers at any time. -/
abbrev TypedStep : Sys → Label Byte → Sys → Prop := Guarded Sys.Typed Step

/-- The keyboard has what it should have. -/
structure Sim (s : Sys) (i : Ideal) : Prop where
  flags : Matches s.kbd i.decoder
  decoder : i.decoder = decode s.typed
  reads : Reads KBD_BUF_SIZE 1 s.readers i.feed

section Runs
variable {s t : Sys} {i : Ideal} {l : Label Byte} {ls : List (Label Byte)}

theorem Sim.init : Sim Sys.init Ideal.init :=
  ⟨⟨fun m => by cases m <;> rfl, rfl, rfl⟩, rfl, .init (by decide) (by decide) ⟨11, rfl⟩⟩

theorem decode_append {bs : List Byte} {b : Byte} :
    decode (bs ++ [b]) = ((decode bs).next b).1 := by
  rw [decode, List.foldl_append]
  rfl

theorem Sim.step (h : Sim s i) (ht : s.Typed l) (hst : Step s l t) :
    ∃ j, IdealStep i l j ∧ Sim t j := by
  cases hst with
  | @scan b k hrun =>
    have ht : i.decoder.Typed b := h.decoder ▸ ht
    obtain ⟨k', hk, hflags, hq⟩ := handle_typed h.flags h.reads.queue ht
    cases hrun.symm.trans hk
    refine ⟨_, .scan, hflags, ?_, hq, h.reads.readers, h.reads.waiting⟩
    rw [decode_append, ← h.decoder]
  | read hread =>
    obtain ⟨f, hf, hr⟩ := hread.feed h.reads (Nat.one_mul _) (.inl rfl)
    exact ⟨_, .read hf, h.flags.setQueue _, h.decoder, hr⟩

theorem Sim.run (h : Sim s i) (hrun : Run TypedStep s ls t) :
    ∃ j, Run IdealStep i ls j ∧ Sim t j := by
  induction hrun generalizing i with
  | nil s => exact ⟨i, .nil i, h⟩
  | cons hst _ ih =>
    obtain ⟨j, hj, hs⟩ := h.step hst.1 hst.2
    obtain ⟨k, hk, ht⟩ := ih hs
    exact ⟨k, .cons hj hk, ht⟩

/-- In every run in which the codes meet the condition, the queue has the characters of the
reference decoder that found room, the readers get them in order, and the next code that meets the
condition does not panic. -/
theorem kbd_run (hrun : Run TypedStep Sys.init ls s) :
    (∃ i, Run IdealStep Ideal.init ls i ∧ i.decoder = decode s.typed ∧ Matches s.kbd i.decoder ∧
      s.kbd.queue.Holds KBD_BUF_SIZE 1 i.feed.queued) ∧
    ∀ b, (decode s.typed).Typed b → ∃ t, Step s (.scan b) t := by
  obtain ⟨i, hi, h⟩ := Sim.init.run hrun
  refine ⟨⟨i, hi, h.decoder, h.flags, h.reads.queue⟩, fun b hb => ?_⟩
  obtain ⟨k, hk, -⟩ := handle_typed h.flags h.reads.queue (h.decoder ▸ hb : i.decoder.Typed b)
  exact ⟨_, .scan hk⟩

theorem kbd_run_letter : ∃ s i, Run TypedStep Sys.init
      [.scan 0x1e, .enter 0 4, .take 0 0x61, .ret 0 [0x61] 1] s ∧
    Run IdealStep Ideal.init [.scan 0x1e, .enter 0 4, .take 0 0x61, .ret 0 [0x61] 1] i := by
  have htyped : (decode []).Typed 0x1e := by
    rw [Decoder.Typed, if_neg (by decide), if_neg (by decide)]
    exact ⟨.inr ⟨rfl, by decide⟩, fun h => absurd h (by decide)⟩
  have hrun : ∃ s, Run TypedStep Sys.init
      [.scan 0x1e, .enter 0 4, .take 0 0x61, .ret 0 [0x61] 1] s :=
    ⟨_, .cons ⟨htyped, .scan rfl⟩ (.cons ⟨trivial, .read (.enter rfl rfl rfl)⟩
      (.cons ⟨trivial, .read (@ReadStep.take _ _ _ _ _ 0 4 3 [] rfl rfl)⟩
        (.single ⟨trivial, .read (@ReadStep.ret _ _ _ _ _ 0 4 3 [0x61] rfl (.inr rfl))⟩)))⟩
  obtain ⟨s, hs⟩ := hrun
  obtain ⟨⟨i, hi, -⟩, -⟩ := kbd_run hs
  exact ⟨s, i, hs, hi⟩

/-- The first function key is in the key map, and the handler does not know it. -/
theorem f1_panics : handleKeyboardEvent 0x3b Sys.init.kbd = .error .panic := rfl

end Runs

end Frog.Device.Keyboard
