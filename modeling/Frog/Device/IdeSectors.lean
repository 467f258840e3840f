import Frog.Device.IdeRuns
import Frog.Fs.Types

/-!
# The disk of the file system

The file system takes `ide_read` and `ide_write` for single steps on the bytes of a disk. A call is
such a step when no access of another thread comes between its own.
-/

namespace Frog.Ide

set_option autoImplicit false
open Bytes

section Sectors
variable {m m' : Media} {es : List Access} {t : Tid} {c : Call} {k j n : Nat} {b : Store}

theorem of_tail {e : Access} (h : ∀ i (e' : Access), (e :: es)[i]? = some e' → e'.Of t c (k + i)) :
    ∀ i (e' : Access), es[i]? = some e' → e'.Of t c (k + 1 + i) := by
  intro i e' hi
  have := h (i + 1) e' (by simpa using hi)
  rwa [show k + (i + 1) = k + 1 + i by omega] at this

/-- Reads of sectors in a row leave the disk alone and bring its bytes. -/
theorem read_row (hrun : Run Atomic m es m') (hof : ∀ i (e : Access), es[i]? = some e → e.Of t c (k + i))
    (hw : c.write = false) (hd : ∀ e ∈ es, e.data ≠ none) :
    m' = m ∧ ∀ b j, fillFrom b k es j =
      if 512 * k ≤ j ∧ j < 512 * (k + es.length) then m c.slave (512 * c.lba.toNat + j) else b j := by
  induction es generalizing k m with
  | nil =>
    cases hrun
    refine ⟨rfl, fun b j => ?_⟩
    rw [if_neg (by simp only [List.length_nil]; omega)]
    rfl
  | cons e es ih =>
    cases hrun with
    | cons he hrun =>
      have ho := hof 0 e rfl
      obtain ⟨hsees, hu⟩ := he
      have hew : e.write = false := ho.write.trans hw
      unfold Access.apply at hu
      simp only [hew] at hu
      subst hu
      obtain ⟨d, hed⟩ := Option.ne_none_iff_exists'.mp (hd e List.mem_cons_self)
      obtain ⟨hm, hfill⟩ := ih hrun (of_tail hof) fun e he => hd e (List.mem_cons_of_mem _ he)
      refine ⟨hm, fun b j => ?_⟩
      simp only [fillFrom, hed, hfill, List.length_cons]
      by_cases h1 : 512 * (k + 1) ≤ j ∧ j < 512 * (k + 1 + es.length)
      · rw [if_pos h1, if_pos (by omega)]
      · rw [if_neg h1]
        by_cases h2 : 512 * k ≤ j ∧ j < 512 * k + 512
        · rw [patch_in h2, if_pos (by omega), hsees hew d hed _ (by omega), ho.slave, ho.lba]
          exact congrArg _ (by omega)
        · rw [patch_out (by omega), if_neg (by omega)]

/-- Writes of sectors in a row are one write. -/
theorem write_row (hrun : Run Atomic m es m') (hof : ∀ i (e : Access), es[i]? = some e → e.Of t c (k + i))
    (hw : c.write = true) (hd : ∀ e ∈ es, e.data ≠ none) :
    m' = Function.update m c.slave (patch (m c.slave) (512 * (c.lba.toNat + k)) (512 * es.length)
      fun j => c.buf (512 * k + j)) := by
  induction es generalizing k m with
  | nil =>
    cases hrun
    simp
  | cons e es ih =>
    cases hrun with
    | cons he hrun =>
      have ho := hof 0 e rfl
      obtain ⟨-, hu⟩ := he
      obtain ⟨d, hed⟩ := Option.ne_none_iff_exists'.mp (hd e List.mem_cons_self)
      unfold Access.apply at hu
      simp only [ho.write.trans hw, hed, ho.slave, ho.lba] at hu
      have hdata := ho.data hw d hed
      subst hu
      rw [ih hrun (of_tail hof) fun e he => hd e (List.mem_cons_of_mem _ he)]
      simp only [Function.update_self, Function.update_idem, List.length_cons]
      rw [show 512 * (c.lba.toNat + (k + 1)) = 512 * (c.lba.toNat + (k + 0)) + 512 by omega, patch_append,
        show 512 + 512 * es.length = 512 * (es.length + 1) by omega]
      congr 1
      refine patch_congr fun j _ => ?_
      by_cases h1 : j < 512
      · rw [if_pos h1, hdata j h1]
        rfl
      · rw [if_neg h1]
        exact congrArg c.buf (by omega)

/-- The sectors of a call are on the disk. -/
theorem Made.near (h : Made t c n) (hn : 0 < n) : c.lba.toNat + n ≤ Fs.maxLba + 1 := by
  have hlt : n - 1 < c.accesses.length := by
    have := h.length
    omega
  have ho := h.each (n - 1) _ (List.getElem?_eq_getElem hlt)
  have hl := ho.lba
  have hnear : _ ≤ 163839 := ho.near
  change _ ≤ 80 * 1024 * 1024 / 512 - 1 + 1
  omega

theorem ideRead_eq {lba cnt : Nat} {fs : Fs.State} (hc : 0 < cnt) (hl : lba + cnt ≤ Fs.maxLba + 1) :
    Fs.ideRead lba cnt fs = .ok (Fs.sectors fs.disk lba cnt, fs) := by
  unfold Fs.ideRead Prog.check
  rw [if_pos ⟨hc, hl⟩]
  rfl

theorem ideWrite_eq {lba cnt : Nat} {fs : Fs.State} (hc : 0 < cnt) (hl : lba + cnt ≤ Fs.maxLba + 1) :
    Fs.ideWrite lba b cnt fs = .ok ((), fs.setDisk (patch fs.disk (512 * lba) (512 * cnt) b)) := by
  unfold Fs.ideWrite Prog.check
  rw [if_pos ⟨hc, hl⟩]
  rfl

end Sectors

/-- A call that came back, whose accesses all succeeded and follow each other in the order of all
accesses, did what the `ideRead` or the `ideWrite` of the file system does to the bytes of its disk
at that point of the order. -/
theorem call_is_step {drive : Drive} {buf : Tid → Store} {es : List Event} {s : State} {x : Done}
    {before after : List Access} (h : Run Step (State.boot drive buf) es s) (hx : x ∈ s.returned)
    (hlog : s.log = before ++ x.call.accesses ++ after) (hd : ∀ e ∈ x.call.accesses, e.data ≠ none) :
    ∃ m m', Run Atomic drive.media before m ∧ Run Atomic m' after s.drive.media ∧
      ∀ fs : Fs.State, fs.disk = m x.call.slave →
        if x.call.write then ∃ fs',
          Fs.ideWrite x.call.lba.toNat x.call.buf x.call.secCnt fs = .ok ((), fs') ∧
            m' = Function.update m x.call.slave fs'.disk
        else m' = m ∧ ∃ r, Fs.ideRead x.call.lba.toNat x.call.secCnt fs = .ok (r, fs) ∧
          ∀ j, j < 512 * x.call.secCnt → x.buf j = r j := by
  have hinv := inv_run h
  have hserved := hinv.done x hx
  have hrun := hinv.run
  rw [hlog] at hrun
  obtain ⟨m', hrun, hafter⟩ := hrun.split
  obtain ⟨m, hbefore, hcall⟩ := hrun.split
  refine ⟨m, m', hbefore, hafter, fun fs hfs => ?_⟩
  have hnear := hserved.made.near hserved.pos
  have hlen := hserved.made.length
  have hof : ∀ i (e : Access), x.call.accesses[i]? = some e → e.Of x.tid x.call (0 + i) := by
    simpa only [Nat.zero_add] using hserved.made.each
  cases hw : x.call.write with
  | true =>
    refine ⟨_, ideWrite_eq hserved.pos hnear, ?_⟩
    rw [write_row hcall hof hw hd, hlen]
    simp only [Nat.add_zero, Nat.mul_zero, Nat.zero_add, ← hfs]
  | false =>
    obtain ⟨hm, hfill⟩ := read_row hcall hof hw hd
    refine ⟨hm, _, ideRead_eq hserved.pos hnear, fun j hj => ?_⟩
    rw [hserved.buf, Call.filled, hw]
    change fillFrom _ 0 _ j = _
    rw [hfill, if_pos (by omega), Fs.sectors, if_pos hj, hfs]

theorem call_is_step_write : ∃ s x m m', Run Step (State.boot blank bytes) twoCalls s ∧
    x ∈ s.returned ∧ x.call.write = true ∧ Run Atomic blank.media [] m ∧
    Run Atomic m' (s.log.drop 1) s.drive.media ∧
      ∀ fs : Fs.State, fs.disk = m x.call.slave →
        if x.call.write then ∃ fs',
          Fs.ideWrite x.call.lba.toNat x.call.buf x.call.secCnt fs = .ok ((), fs') ∧
            m' = Function.update m x.call.slave fs'.disk
        else m' = m ∧ ∃ r, Fs.ideRead x.call.lba.toNat x.call.secCnt fs = .ok (r, fs) ∧
          ∀ j, j < 512 * x.call.secCnt → x.buf j = r j := by
  have h : ((twoCalls.foldlM State.next (State.boot blank bytes)).any fun s =>
      s.log.length == 2 && s.returned.head?.any fun x => x.call.start == 0 && x.stop == 1 &&
        x.call.write && x.call.secCnt == 1 && x.call.accesses.all fun e => e.data.isSome) = true := by
    decide +kernel
  obtain ⟨s, hs, hs'⟩ := (Option.any_eq_true ..).mp h
  have hrun := run_next hs
  obtain ⟨hlog, hret⟩ := Bool.and_eq_true_iff.mp hs'
  cases hr : s.returned with
  | nil =>
    rw [hr] at hret
    cases hret
  | cons x xs =>
    rw [hr] at hret
    obtain ⟨⟨⟨⟨hstart, hstop⟩, hwrite⟩, hcnt⟩, hall⟩ : (((x.call.start = 0 ∧ x.stop = 1) ∧
        x.call.write = true) ∧ x.call.secCnt = 1) ∧
        (x.call.accesses.all fun e => e.data.isSome) = true := by
      simpa only [List.head?_cons, Option.any_some, Bool.and_eq_true, beq_iff_eq] using hret
    have hx : x ∈ s.returned := by
      rw [hr]
      exact List.mem_cons_self
    have hserved := (inv_run hrun).done x hx
    have hsub := hserved.sub
    have hlen := hserved.made.length
    rw [hstart, hstop, List.drop_zero] at hsub
    -- the first access of all is the one of the call
    have heq : x.call.accesses = s.log.take 1 := hsub.eq_of_length (by
      rw [hlen, hcnt, List.length_take, beq_iff_eq.mp hlog]
      rfl)
    have hsplit : s.log = [] ++ x.call.accesses ++ s.log.drop 1 := by
      rw [heq, List.nil_append, List.take_append_drop]
    obtain ⟨m, m', hm, hm', hfs⟩ := call_is_step hrun hx hsplit fun e he hnone => by
      have hsome := List.all_eq_true.mp hall e he
      rw [hnone] at hsome
      cases hsome
    exact ⟨s, x, m, m', hrun, hx, hwrite, hm, hm', hfs⟩

end Frog.Ide
