import Frog.Descr.Standard

/-!
# Writers

Which slots write to an inode, what `i_lock` says about it, and what the operations on inodes and slots
do to both.
-/

namespace Frog.Descr

set_option autoImplicit false
open Prog
open Fs (FileType File Stop maxFileOpen maxFilesOpenPerProc pipeFlag hasFlag oCreat clearedFile)

/-- The slot `g` is open for writing to the inode at `q`. -/
def Writer (s : State) (g q : Nat) : Prop :=
  (s.files g).fdInode = some q ∧ writes (s.files g).fdFlag = true

/-- One writer for each inode, known by its number, and a lock that says so. -/
structure OneWriter (s : State) : Prop where
  held : ∀ g q, (s.files g).fdInode = some q → ∃ x, s.heap q = some (.inode x)
  one : ∀ g g' q q' x x', Writer s g q → Writer s g' q' → s.heap q = some (.inode x) →
    s.heap q' = some (.inode x') → x.iNum = x'.iNum → g = g'
  lock : ∀ q x, s.heap q = some (.inode x) → (x.iLock = true ↔ ∃ g, Writer s g q)

/-- `G` holds of what is in the list of open inodes. -/
structure WInv (G : Nat → FileType → Prop) (s : State) : Prop where
  fresh : ∀ q, s.next ≤ q → s.heap q = none
  nodup : s.openInodes.Nodup
  listed : ∀ q ∈ s.openInodes, ∃ x, s.heap q = some (.inode x) ∧ G x.iNum x.iType
  inj : ∀ q q' x x', q ∈ s.openInodes → q' ∈ s.openInodes → s.heap q = some (.inode x) →
    s.heap q' = some (.inode x') → x.iNum = x'.iNum → q = q'
  held : ∀ g q, (s.files g).fdInode = some q → ∃ x, s.heap q = some (.inode x)
  writer : ∀ g q, Writer s g q → q ∈ s.openInodes
  flag : ∀ g, (s.files g).fdFlag ≠ pipeFlag
  one : ∀ g g' q, Writer s g q → Writer s g' q → g = g'
  lock : ∀ q x, s.heap q = some (.inode x) → (x.iLock = true ↔ ∃ g, Writer s g q)

variable {s t u v : State} {p g fd q nr flags : Nat} {G G' : Nat → FileType → Prop} {x y : Inode}
  {disk : Nat → Inode}

theorem WInv.oneWriter (h : WInv G s) : OneWriter s :=
  ⟨h.held, fun g g' q q' x x' hg hg' hx hx' hn =>
    h.one g g' q hg (h.inj q q' x x' (h.writer g q hg) (h.writer g' q' hg') hx hx' hn ▸ hg'), h.lock⟩

theorem WInv.mono (h : WInv G s) (hG : ∀ n ty, G n ty → G' n ty) : WInv G' s :=
  { h with listed := fun q hq => (h.listed q hq).imp fun _ hx => ⟨hx.1, hG _ _ hx.2⟩ }

theorem WInv.lt (h : WInv G s) (hx : s.heap q = some (.inode x)) : q < s.next := by
  by_contra hge
  rw [h.fresh q (Nat.not_lt.mp hge)] at hx
  cases hx

theorem setObj_heap {o : Option Obj} {r : Nat} : (s.setObj q o).heap r =
    if r = q then o else s.heap r := Function.update_apply ..

theorem setFile_files {f : File} {g' : Nat} : (s.setFile g f).files g' =
    if g' = g then f else s.files g' := Function.update_apply ..

/-! ## Inodes -/

/-- What there was stays, perhaps with another count, and what comes is not locked. -/
structure Recounted (s t : State) : Prop where
  opens : t.openInodes = s.openInodes
  files : t.files = s.files
  fresh : ∀ r, t.next ≤ r → t.heap r = none
  old : ∀ r y, s.heap r = some (.inode y) → ∃ c, t.heap r = some (.inode { y with iCount := c })
  new : ∀ r y, t.heap r = some (.inode y) →
    (∃ c, s.heap r = some (.inode { y with iCount := c })) ∨ s.next ≤ r ∧ y.iLock = false

theorem WInv.recounted (h : WInv G s) (hr : Recounted s t) : WInv G t := by
  have hback : ∀ r ∈ s.openInodes, ∀ y, t.heap r = some (.inode y) →
      ∃ c, s.heap r = some (.inode { y with iCount := c }) := by
    intro r hmem y hy
    refine (hr.new r y hy).resolve_right fun hle => ?_
    obtain ⟨z, hz, -⟩ := h.listed r hmem
    exact absurd (h.lt hz) (Nat.not_lt.mpr hle.1)
  have hwriter : ∀ g q, Writer t g q ↔ Writer s g q := fun g q => by
    unfold Writer
    rw [hr.files]
  refine ⟨hr.fresh, hr.opens ▸ h.nodup, fun r hmem => ?_, fun r r' y y' hmem hmem' hy hy' hn => ?_,
    fun g r hg => ?_, fun g r hg => ?_, hr.files ▸ h.flag,
    fun g g' r hg hg' => h.one g g' r ((hwriter g r).mp hg) ((hwriter g' r).mp hg'), fun r y hy => ?_⟩
  · rw [hr.opens] at hmem
    obtain ⟨y, hy, hG⟩ := h.listed r hmem
    obtain ⟨c, hc⟩ := hr.old r y hy
    exact ⟨_, hc, hG⟩
  · rw [hr.opens] at hmem hmem'
    obtain ⟨c, hc⟩ := hback r hmem y hy
    obtain ⟨c', hc'⟩ := hback r' hmem' y' hy'
    exact h.inj r r' _ _ hmem hmem' hc hc' hn
  · rw [hr.files] at hg
    obtain ⟨y, hy⟩ := h.held g r hg
    obtain ⟨c, hc⟩ := hr.old r y hy
    exact ⟨_, hc⟩
  · rw [hr.opens]
    exact h.writer g r ((hwriter g r).mp hg)
  · simp only [hwriter]
    rcases hr.new r y hy with ⟨c, hc⟩ | ⟨hle, hl⟩
    · exact h.lock r { y with iCount := c } hc
    · rw [hl]
      refine iff_of_false Bool.false_ne_true ?_
      rintro ⟨g, hg⟩
      obtain ⟨z, hz⟩ := h.held g r hg.1
      exact absurd (h.lt hz) (Nat.not_lt.mpr hle)

/-- A new inode, which nobody writes to. -/
theorem WInv.alloc (h : WInv G s) (hl : x.iLock = false) :
    WInv G { s.setObj s.next (some (.inode x)) with next := s.next + 1 } := by
  refine h.recounted ⟨rfl, rfl, fun r hr => ?_, fun r y hy => ⟨y.iCount, ?_⟩, fun r y hy => ?_⟩
  · have hlt : s.next < r := hr
    exact (setObj_heap.trans (if_neg hlt.ne')).trans (h.fresh r hlt.le)
  · exact (setObj_heap.trans (if_neg (h.lt hy).ne)).trans hy
  · replace hy := setObj_heap.symm.trans hy
    split at hy
    · rename_i hr
      cases hy
      exact .inr ⟨hr.ge, hl⟩
    · exact .inl ⟨y.iCount, hy⟩

/-- An inode changes in its count. -/
theorem WInv.recount (h : WInv G s) (hx : s.heap q = some (.inode x)) {c : Nat} :
    WInv G (s.setObj q (some (.inode { x with iCount := c }))) := by
  refine h.recounted ⟨rfl, rfl, fun r hr => ?_, fun r y hy => ?_, fun r y hy => ?_⟩
  · have hlt : q < s.next := h.lt hx
    have hle : s.next ≤ r := hr
    rw [setObj_heap, if_neg (by omega)]
    exact h.fresh r hr
  · rw [setObj_heap]
    split
    · rename_i hr
      rw [hr, hx] at hy
      cases hy
      exact ⟨c, rfl⟩
    · exact ⟨y.iCount, hy⟩
  · rw [setObj_heap] at hy
    split at hy
    · rename_i hr
      cases hy
      exact .inl ⟨x.iCount, hr ▸ hx⟩
    · exact .inl ⟨y.iCount, hy⟩

/-- An inode is listed. -/
theorem WInv.list (h : WInv G s) (hx : s.heap q = some (.inode x)) (hq : q ∉ s.openInodes)
    (hG : G x.iNum x.iType)
    (hn : ∀ r ∈ s.openInodes, ∀ y, s.heap r = some (.inode y) → y.iNum ≠ x.iNum) :
    WInv G { s with openInodes := q :: s.openInodes } := by
  refine ⟨h.fresh, List.nodup_cons.mpr ⟨hq, h.nodup⟩, ?_, fun r r' y y' hr hr' hy hy' hnum => ?_, h.held,
    fun g r hg => List.mem_cons_of_mem _ (h.writer g r hg), h.flag, h.one, h.lock⟩
  · exact List.forall_mem_cons.mpr ⟨⟨x, hx, hG⟩, h.listed⟩
  · rcases List.mem_cons.mp hr with he | hr <;> rcases List.mem_cons.mp hr' with he' | hr'
    · rw [he, he']
    · rw [he] at hy
      cases hy.symm.trans hx
      exact absurd hnum.symm (hn r' hr' y' hy')
    · rw [he'] at hy'
      cases hy'.symm.trans hx
      exact absurd hnum (hn r hr y hy)
    · exact h.inj r r' y y' hr hr' hy hy' hnum

/-- An inode that no slot holds is freed. -/
theorem WInv.drop (h : WInv G s) (hq : ∀ g, (s.files g).fdInode ≠ some q) :
    WInv G (({ s with openInodes := s.openInodes.erase q } : State).setObj q none) := by
  have hheap : ∀ r, (({ s with openInodes := s.openInodes.erase q } : State).setObj q none).heap r =
      if r = q then none else s.heap r := fun r => setObj_heap
  have hback : ∀ r y, (if r = q then none else s.heap r) = some (.inode y) →
      s.heap r = some (.inode y) := by
    intro r y hy
    split at hy
    · cases hy
    · exact hy
  have hmem : ∀ r ∈ s.openInodes.erase q, r ≠ q ∧ r ∈ s.openInodes := fun r hr =>
    (h.nodup.mem_erase_iff).mp hr
  refine ⟨fun r hr => ?_, h.nodup.erase q, fun r hr => ?_, fun r r' y y' hr hr' hy hy' hn => ?_,
    fun g r hg => ?_, fun g r hg => ?_, h.flag, h.one, fun r y hy => ?_⟩
  · rw [hheap]
    split
    · rfl
    · exact h.fresh r hr
  · obtain ⟨hne, hr⟩ := hmem r hr
    rw [hheap, if_neg hne]
    exact h.listed r hr
  · rw [hheap] at hy hy'
    exact h.inj r r' y y' (hmem r hr).2 (hmem r' hr').2 (hback r y hy) (hback r' y' hy') hn
  · have hne : r ≠ q := by
      rintro rfl
      exact hq g hg
    rw [hheap, if_neg hne]
    exact h.held g r hg
  · have hne : r ≠ q := by
      rintro rfl
      exact hq g hg.1
    exact h.nodup.mem_erase_iff.mpr ⟨hne, h.writer g r hg⟩
  · rw [hheap] at hy
    exact h.lock r y (hback r y hy)

/-! ## Slots -/

/-- A free slot is opened, not for writing. -/
theorem WInv.reader (h : WInv G s) {f : File} (hg : (s.files g).fdInode = none)
    (hq : ∀ q, f.fdInode = some q → ∃ x, s.heap q = some (.inode x))
    (hf : writes f.fdFlag = false ∨ f.fdInode = none) (hp : f.fdFlag ≠ pipeFlag) :
    WInv G (s.setFile g f) := by
  have hwriter : ∀ g' q, Writer (s.setFile g f) g' q ↔ Writer s g' q := by
    intro g' q
    unfold Writer
    rw [setFile_files]
    split
    · rename_i hgg
      rw [hgg, hg]
      refine iff_of_false (fun hw => ?_) (fun hw => nomatch hw.1)
      rcases hf with hf | hf
      · rw [hf] at hw
        cases hw.2
      · rw [hf] at hw
        cases hw.1
    · exact Iff.rfl
  refine ⟨h.fresh, h.nodup, h.listed, h.inj, fun g' q hg' => ?_,
    fun g' q hw => h.writer g' q ((hwriter g' q).mp hw), fun g' => ?_,
    fun g' g'' q hw hw' => h.one g' g'' q ((hwriter g' q).mp hw) ((hwriter g'' q).mp hw'), fun q x hx => ?_⟩
  · rw [setFile_files] at hg'
    split at hg'
    · exact hq q hg'
    · exact h.held g' q hg'
  · rw [setFile_files]
    split
    · exact hp
    · exact h.flag g'
  · simp only [hwriter]
    exact h.lock q x hx

/-- The lock of an inode is written. -/
theorem relock_heap (hx : s.heap q = some (.inode x)) {b : Bool} {r : Nat}
    (hy : (s.setObj q (some (.inode { x with iLock := b }))).heap r = some (.inode y)) :
    ∃ z, s.heap r = some (.inode z) ∧ z.iNum = y.iNum ∧ (r = q → y.iLock = b) ∧ (r ≠ q → z = y) := by
  rw [setObj_heap] at hy
  split at hy
  · rename_i hr
    cases hy
    exact ⟨x, hr ▸ hx, rfl, fun _ => rfl, fun hne => absurd hr hne⟩
  · rename_i hr
    exact ⟨y, hy, rfl, fun he => absurd he hr, fun _ => rfl⟩

theorem relock_keep (hx : s.heap q = some (.inode x)) {b : Bool} {r : Nat}
    (hy : s.heap r = some (.inode y)) :
    ∃ z, (s.setObj q (some (.inode { x with iLock := b }))).heap r = some (.inode z) ∧
      z.iNum = y.iNum ∧ z.iType = y.iType := by
  rw [setObj_heap]
  split
  · rename_i hr
    rw [hr, hx] at hy
    cases hy
    exact ⟨_, rfl, rfl, rfl⟩
  · exact ⟨y, hy, rfl, rfl⟩

/-- A slot is written and the lock of `q` with it, so that both agree. -/
theorem WInv.rewrite (h : WInv G s) {f : File} {b : Bool} (hx : s.heap q = some (.inode x))
    (hf : ∀ r, f.fdInode = some r → r = q) (hp : f.fdFlag ≠ pipeFlag)
    (hg : ∀ r, (s.files g).fdInode = some r → r = q)
    (hw : f.fdInode = some q → writes f.fdFlag = true → q ∈ s.openInodes)
    (hone : ∀ g', g' ≠ g → ¬ Writer s g' q)
    (hb : b = true ↔ f.fdInode = some q ∧ writes f.fdFlag = true) :
    WInv G ((s.setFile g f).setObj q (some (.inode { x with iLock := b }))) := by
  have hfile : ∀ g', ((s.setFile g f).setObj q (some (.inode { x with iLock := b }))).files g' =
      if g' = g then f else s.files g' := fun g' => setFile_files
  have hwriter : ∀ g' r, Writer ((s.setFile g f).setObj q (some (.inode { x with iLock := b }))) g' r →
      g' = g ∧ r = q ∧ f.fdInode = some q ∧ writes f.fdFlag = true ∨ g' ≠ g ∧ r ≠ q ∧ Writer s g' r := by
    rintro g' r ⟨h1, h2⟩
    rw [hfile] at h1 h2
    split at h1
    · rename_i hgg
      rw [if_pos hgg] at h2
      obtain rfl := hf r h1
      exact .inl ⟨hgg, rfl, h1, h2⟩
    · rename_i hgg
      rw [if_neg hgg] at h2
      refine .inr ⟨hgg, ?_, h1, h2⟩
      rintro rfl
      exact hone g' hgg ⟨h1, h2⟩
  refine ⟨fun r hr => ?_, h.nodup, fun r hr => ?_, fun r r' y y' hr hr' hy hy' hn => ?_,
    fun g' r hg' => ?_, fun g' r hg' => ?_, fun g' => ?_, fun g' g'' r hg' hg'' => ?_, fun r y hy => ?_⟩
  · have hlt : q < s.next := h.lt hx
    have hle : s.next ≤ r := hr
    rw [setObj_heap, if_neg (by omega)]
    exact h.fresh r hr
  · obtain ⟨y, hy, hG⟩ := h.listed r hr
    obtain ⟨z, hz, h1, h2⟩ := relock_keep (b := b) hx hy
    exact ⟨z, hz, h1 ▸ h2 ▸ hG⟩
  · obtain ⟨z, hz, h1, -⟩ := relock_heap hx hy
    obtain ⟨z', hz', h2, -⟩ := relock_heap hx hy'
    exact h.inj r r' z z' hr hr' hz hz' (h1.trans (hn.trans h2.symm))
  · rw [hfile] at hg'
    have hold : ∃ y, s.heap r = some (.inode y) := by
      split at hg'
      · exact hf r hg' ▸ ⟨x, hx⟩
      · exact h.held g' r hg'
    obtain ⟨y, hy⟩ := hold
    obtain ⟨z, hz, -⟩ := relock_keep (b := b) hx hy
    exact ⟨z, hz⟩
  · rcases hwriter g' r hg' with ⟨-, rfl, h1, h2⟩ | ⟨-, -, hold⟩
    · exact hw h1 h2
    · exact h.writer g' r hold
  · rw [hfile]
    split
    · exact hp
    · exact h.flag g'
  · rcases hwriter g' r hg' with ⟨h1, h2, -⟩ | ⟨-, h2, hold⟩ <;>
      rcases hwriter g'' r hg'' with ⟨h3, h4, -⟩ | ⟨-, h4, hold'⟩
    · rw [h1, h3]
    · exact absurd h2 h4
    · exact absurd h4 h2
    · exact h.one g' g'' r hold hold'
  · obtain ⟨z, hz, -, h1, h2⟩ := relock_heap hx hy
    by_cases hr : r = q
    · subst hr
      rw [h1 rfl, hb]
      constructor
      · rintro ⟨h3, h4⟩
        refine ⟨g, ?_⟩
        unfold Writer
        rw [hfile, if_pos rfl]
        exact ⟨h3, h4⟩
      · rintro ⟨g', hg'⟩
        rcases hwriter g' r hg' with ⟨-, -, h3, h4⟩ | ⟨-, hne, -⟩
        · exact ⟨h3, h4⟩
        · exact absurd rfl hne
    · obtain rfl := h2 hr
      rw [h.lock r z hz]
      constructor
      · rintro ⟨g', hg'⟩
        have hgg : g' ≠ g := by
          rintro rfl
          exact hr (hg r hg'.1)
        refine ⟨g', ?_⟩
        unfold Writer
        rw [hfile, if_neg hgg]
        exact hg'
      · rintro ⟨g', hg'⟩
        rcases hwriter g' r hg' with ⟨-, hrq, -⟩ | ⟨-, -, hold⟩
        · exact absurd hrq hr
        · exact ⟨g', hold⟩

end Frog.Descr
