import Frog.Fs.Types

/-!
# Bitmap allocation

The part of `core/fs/file.c` that takes numbers from the two bitmaps and writes the bitmaps
back, sector by sector.
-/

namespace Frog.Fs

set_option autoImplicit false
open Bytes

/-- `bit_idx / BITS_PER_SECTOR`, where `bit_idx` is a signed parameter. -/
def sectorOfBit (bitIdx : Nat) : Nat :=
  if bitIdx < 2 ^ 31 then bitIdx / 4096 else u32 (2 ^ 32 - (2 ^ 32 - bitIdx) / 4096)

def flushBitmap (t : BitmapType) (bitIdx : Nat) : M Unit := do
  let s ← Prog.get
  let offSce := sectorOfBit bitIdx
  let offSize := u32 (offSce * 512)
  let (startLba, bits) := match t with
    | .inodeBitmap => (s.sb.sImapLba, s.inodeBitmap.bits)
    | .zoneBitmap => (s.sb.sZmapLba, s.zoneBitmap.bits)
  ideWrite (u32 (startLba + offSce)) (fun i => bits (offSize + i)) 1

/-- `set_value_bitmap` on one of the two maps. -/
def setBit (t : BitmapType) (pos : Nat) (v : Bool) : M Unit := do
  let s ← Prog.get
  match t with
  | .inodeBitmap =>
    Prog.check (pos < s.inodeBitmap.mapBytesLength * 8) .panic
    Prog.modify fun s => s.setInodeMap (s.inodeBitmap.setValue pos v)
  | .zoneBitmap =>
    Prog.check (pos < s.zoneBitmap.mapBytesLength * 8) .panic
    Prog.modify fun s => s.setZoneMap (s.zoneBitmap.setValue pos v)

def inodeBitmapAlloc : M (Option Nat) := do
  let s ← Prog.get
  match s.inodeBitmap.findBlock 1 with
  | none => pure none
  | some idx =>
    setBit .inodeBitmap idx true
    pure (some idx)

/-- The zone's address, or `none` for `-1`. -/
def zoneBitmapAlloc : M (Option Nat) := do
  let s ← Prog.get
  match s.zoneBitmap.findBlock 1 with
  | none => pure none
  | some idx =>
    setBit .zoneBitmap idx true
    pure (orMinusOne (u32 (s.sb.sDataStartLba + idx)))

/-- `zone_bitmap_alloc` and, when it succeeds, the flush of the new bit. -/
def takeFreeZone : M (Option Nat) := do
  match ← zoneBitmapAlloc with
  | none => pure none
  | some lba =>
    let s ← Prog.get
    flushBitmap .zoneBitmap (u32Sub lba s.sb.sDataStartLba)
    pure (some lba)

end Frog.Fs
