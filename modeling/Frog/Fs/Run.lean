import Frog.Fs.Format

/-!
# Running the primitives

One rule for each operation on memory and disk, from which the rules of the calls are composed.
-/

namespace Frog.Fs

set_option autoImplicit false
open Bytes Prog

variable {E : Stop → Prop} {s : State}

@[simp] theorem wp_sysMalloc {Q : Bool → State → Prop} {size : Nat} (h : 0 < size) :
    wp E (sysMalloc size) Q s ↔
      Q (s.env.malloc 0) s.nextMalloc := by
  simp only [wp, sysMalloc, if_neg (Nat.pos_iff_ne_zero.mp h)]

@[simp] theorem wp_readJunk {Q : Store → State → Prop} :
    wp E readJunk Q s ↔ Q (s.env.junk 0) s.nextJunk := Iff.rfl

@[simp] theorem wp_inodeAt {Q : Inode → State → Prop} {p : Nat} :
    wp E (inodeAt p) Q s ↔ (∀ x, s.inodes p = some x → Q x s) ∧ (s.inodes p = none → E .fault) := by
  simp [inodeAt]

@[simp] theorem wp_setInode {Q : Unit → State → Prop} {p : Nat} {x : Inode} :
    wp E (setInode p x) Q s ↔ Q () (s.putInode p (some x)) := Iff.rfl

@[simp] theorem wp_fileAt {Q : File → State → Prop} {g : Nat} :
    wp E (fileAt g) Q s ↔ Q (s.fileTable g) s := Iff.rfl

@[simp] theorem wp_setFile {Q : Unit → State → Prop} {g : Nat} {f : File} :
    wp E (setFile g f) Q s ↔ Q () (s.putFile g f) := Iff.rfl

@[simp] theorem wp_ideRead {Q : Store → State → Prop} {lba cnt : Nat} :
    wp E (ideRead lba cnt) Q s ↔
      (0 < cnt ∧ lba + cnt ≤ maxLba + 1 → Q (sectors s.disk lba cnt) s) ∧
        (¬ (0 < cnt ∧ lba + cnt ≤ maxLba + 1) → E .panic) := by
  simp [ideRead]

@[simp] theorem wp_ideWrite {Q : Unit → State → Prop} {lba cnt : Nat} {buf : Store} :
    wp E (ideWrite lba buf cnt) Q s ↔
      (0 < cnt ∧ lba + cnt ≤ maxLba + 1 →
        Q () (s.setDisk (patch s.disk (512 * lba) (512 * cnt) buf))) ∧
        (¬ (0 < cnt ∧ lba + cnt ≤ maxLba + 1) → E .panic) := by
  simp [ideWrite]

theorem wp_ideRead_one {Q : Store → State → Prop} {lba : Nat} (h : lba ≤ maxLba) :
    wp E (ideRead lba 1) Q s ↔ Q (sectors s.disk lba 1) s := by
  have h1 : 0 < 1 ∧ lba + 1 ≤ maxLba + 1 := by omega
  simp only [wp_ideRead, h1, not_true_eq_false, false_implies, and_true, true_implies]

theorem wp_ideWrite_one {Q : Unit → State → Prop} {lba : Nat} {buf : Store} (h : lba ≤ maxLba) :
    wp E (ideWrite lba buf 1) Q s ↔
      Q () (s.setDisk (patch s.disk (512 * lba) 512 buf)) := by
  have h1 : 0 < 1 ∧ lba + 1 ≤ maxLba + 1 := by omega
  simp only [wp_ideWrite, h1, not_true_eq_false, false_implies, and_true, true_implies, Nat.mul_one]

/-- The state after `fd_pos` of slot `g` has grown. -/
def State.advanced (s : State) (g n : Nat) : State :=
  s.putFile g { s.fileTable g with fdPos := u32 ((s.fileTable g).fdPos + n) }

@[simp] theorem wp_advance {Q : Unit → State → Prop} {g n : Nat} :
    wp E (advance g n) Q s ↔ Q () (s.advanced g n) := Iff.rfl

@[simp] theorem advanced_disk (s : State) (g n : Nat) : (s.advanced g n).disk = s.disk := rfl

@[simp] theorem advanced_inodes (s : State) (g n : Nat) : (s.advanced g n).inodes = s.inodes := rfl

theorem advanced_fdPos (s : State) (g n : Nat) :
    ((s.advanced g n).fileTable g).fdPos = u32 ((s.fileTable g).fdPos + n) := by
  simp [State.advanced]

theorem advanced_advanced (s : State) (g n m : Nat) :
    (s.advanced g n).advanced g m = s.advanced g (n + m) := by
  simp only [State.advanced, State.putFile, u32, Function.update_idem, Function.update_self,
    Nat.mod_add_mod, Nat.add_assoc]

theorem advanced_zero {s : State} {g : Nat} (h : (s.fileTable g).fdPos < 2 ^ 32) :
    s.advanced g 0 = s := by
  have hu : u32 ((s.fileTable g).fdPos + 0) = (s.fileTable g).fdPos := u32_of_lt h
  simp only [State.advanced, State.putFile, hu, Function.update_eq_self]

theorem sectors_apply {disk : Store} {lba cnt i : Nat} (h : i < 512 * cnt) :
    sectors disk lba cnt i = disk (512 * lba + i) := if_pos h

end Frog.Fs
