import Frog.Descr.Valid

/-!
# Calls that open

`sys_open` and `sys_pipe` add descriptors for slots that were free. What directories `sys_open` closes
on its way must not be the last reference to an inode in use.
-/

namespace Frog.Descr

set_option autoImplicit false
open Prog
open Fs (FileType File Stop maxFileOpen maxFilesOpenPerProc pipeFlag hasFlag oCreat clearedFile)

variable {s t u : State} {p g fd q : Nat}

/-- Any way to stop is allowed. -/
abbrev Any : Stop → Prop := fun _ => True

theorem wp_both {α : Type} {m : M α} {Q Q' : α → State → Prop} (h : wp Any m Q s) (h' : wp Any m Q' s) :
    wp Any m (fun a t => Q a t ∧ Q' a t) s := wp_and h h'

@[simp] theorem wp_inodeAt {Q : Inode → State → Prop} :
    wp Any (inodeAt q) Q s ↔ ∀ x, s.heap q = some (.inode x) → Q x s := by
  unfold wp inodeAt
  cases h : s.heap q with
  | none => simp
  | some o => cases o <;> simp

@[simp] theorem wp_setInode {Q : Unit → State → Prop} {x : Inode} :
    wp Any (setInode q x) Q s ↔ Q () (s.setObj q (some (.inode x))) := Iff.rfl

@[simp] theorem wp_freeObj {Q : Unit → State → Prop} :
    wp Any (freeObj q) Q s ↔ Q () (s.setObj q none) := Iff.rfl

@[simp] theorem wp_newObj {Q : Nat → State → Prop} {o : Obj} :
    wp Any (newObj o) Q s ↔ Q s.next { s.setObj s.next (some o) with next := s.next + 1 } := Iff.rfl

@[simp] theorem wp_listAddOpen {Q : Unit → State → Prop} :
    wp Any (listAddOpen q) Q s ↔ Q () { s with openInodes := q :: s.openInodes } := Iff.rfl

@[simp] theorem wp_setFile {Q : Unit → State → Prop} {f : File} :
    wp Any (setFile g f) Q s ↔ Q () (s.setFile g f) := Iff.rfl

@[simp] theorem wp_fileAt {Q : File → State → Prop} :
    wp Any (fileAt g) Q s ↔ Q (s.files g) s := Iff.rfl

@[simp] theorem wp_setEntry {Q : Unit → State → Prop} {o : Option Nat} :
    wp Any (setEntry p fd o) Q s ↔ Q () (s.setEntry p fd o) := Iff.rfl

theorem wp_occupy {Q : Option Nat → State → Prop} (h0 : Q none s)
    (h1 : ∀ g, g < maxFileOpen → (s.files g).fdInode = none → Q (some g) s) :
    wp Any occupyFileTableSlot Q s := by
  change Q ((List.range maxFileOpen).find? fun g => (s.files g).fdInode.isNone) s
  cases h : (List.range maxFileOpen).find? fun g => (s.files g).fdInode.isNone with
  | none => exact h0
  | some g =>
    refine h1 g (List.mem_range.mp (List.mem_of_find?_eq_some h)) ?_
    simpa using List.find?_some h

theorem wp_installThreadFd {Q : Option Nat → State → Prop} {o : Option Nat}
    (h0 : (∀ fd, 3 ≤ fd → fd < maxFilesOpenPerProc → s.tables p fd ≠ none) → Q none s)
    (h1 : ∀ fd, 3 ≤ fd → fd < maxFilesOpenPerProc → s.tables p fd = none →
      Q (some fd) (s.setEntry p fd o)) :
    wp Any (installThreadFd p o) Q s := by
  unfold installThreadFd
  simp only [wp_bind, wp_get]
  cases h : (List.range maxFilesOpenPerProc).find? fun fd => 3 ≤ fd ∧ s.tables p fd = none with
  | none =>
    refine h0 fun fd h3 hlt hno => ?_
    have := List.find?_eq_none.mp h fd (List.mem_range.mpr hlt)
    simp [h3, hno] at this
  | some fd =>
    have hfd := List.mem_range.mp (List.mem_of_find?_eq_some h)
    have hc := List.find?_some h
    simp only [decide_eq_true_eq] at hc
    exact h1 fd hc.1 hfd hc.2

/-! ## New objects -/

/-- Objects that exist stay as they are, and only new ones come. -/
structure Adds (s t : State) : Prop where
  live : t.live = s.live
  files : t.files = s.files
  tables : t.tables = s.tables
  heap : ∀ q, (s.heap q).isSome = true → t.heap q = s.heap q
  opens : ∀ q, (s.heap q).isSome = true → (q ∈ t.openInodes ↔ q ∈ s.openInodes)
  fresh : ∀ q, t.next ≤ q → t.heap q = none

theorem Adds.refl (hf : ∀ q, s.next ≤ q → s.heap q = none) : Adds s s :=
  ⟨rfl, rfl, rfl, fun _ _ => rfl, fun _ _ => Iff.rfl, hf⟩

theorem Adds.trans (h : Adds s t) (h' : Adds t u) : Adds s u := by
  have hs : ∀ q, (s.heap q).isSome = true → (t.heap q).isSome = true := by
    intro q hq
    rw [h.heap q hq]
    exact hq
  exact ⟨h'.live.trans h.live, h'.files.trans h.files, h'.tables.trans h.tables,
    fun q hq => (h'.heap q (hs q hq)).trans (h.heap q hq),
    fun q hq => (h'.opens q (hs q hq)).trans (h.opens q hq), h'.fresh⟩

/-- A new object, perhaps listed. -/
theorem Adds.new {l : List Nat} {o : Obj} (hf : ∀ q, s.next ≤ q → s.heap q = none)
    (hl : ∀ q, q ≠ s.next → (q ∈ l ↔ q ∈ s.openInodes)) :
    Adds s { s.setObj s.next (some o) with next := s.next + 1, openInodes := l } := by
  have hne : ∀ q, (s.heap q).isSome = true → q ≠ s.next := by
    rintro q hq rfl
    rw [hf _ (Nat.le_refl _)] at hq
    cases hq
  refine ⟨rfl, rfl, rfl, fun q hq => Function.update_of_ne (hne q hq) .., fun q hq => hl q (hne q hq),
    fun q hq => ?_⟩
  have hlt : s.next < q := hq
  exact (Function.update_of_ne (Nat.ne_of_gt hlt) ..).trans (hf q (Nat.le_of_lt hlt))

theorem wp_findOpenInode {nr : Nat} {l : List Nat} :
    wp Any (findOpenInode nr l) (fun r t => t = s ∧ (∀ q, r = some q → q ∈ l ∧
      ∃ x, s.heap q = some (.inode x) ∧ x.iNum = nr) ∧
      (r = none → ∀ q ∈ l, ∀ x, s.heap q = some (.inode x) → x.iNum ≠ nr)) s := by
  induction l with
  | nil => exact ⟨rfl, by simp, fun _ q hq => absurd hq List.not_mem_nil⟩
  | cons a l ih =>
    simp only [findOpenInode, wp_bind, wp_inodeAt, wp_ite, wp_pure]
    intro x hx
    refine ⟨fun hn => ⟨trivial, fun q hq => ?_, by simp⟩, fun hne => wp_mono ih ?_⟩
    · cases hq
      exact ⟨by simp, x, hx, hn⟩
    · rintro r _ ⟨rfl, hr, hnone⟩
      refine ⟨rfl, fun q hq => ⟨List.mem_cons_of_mem _ (hr q hq).1, (hr q hq).2⟩, fun h0 => ?_⟩
      refine List.forall_mem_cons.mpr ⟨fun y hy => ?_, hnone h0⟩
      cases hx.symm.trans hy
      exact hne

theorem wp_inodeOpen {disk : Nat → Inode} {nr : Nat} (hf : ∀ q, s.next ≤ q → s.heap q = none) :
    wp Any (inodeOpen disk nr) (fun q t => Adds s t ∧ q ∈ t.openInodes ∧
      ∃ x, t.heap q = some (.inode x) ∧ x.iNum = nr) s := by
  unfold inodeOpen
  simp only [wp_bind, wp_get]
  refine wp_mono wp_findOpenInode ?_
  rintro (_ | q) _ ⟨rfl, hr, -⟩
  · refine ⟨?_, ?_⟩
    · exact .new hf fun q hq => by simp [hq, State.setObj]
    · exact ⟨by simp [State.setObj], _, Function.update_self .., rfl⟩
  · exact ⟨.refl hf, (hr q rfl).1, (hr q rfl).2⟩

/-! ## The walk -/

/-- Everything in use is still there. -/
structure Walked (P : Nat → Prop) (s t : State) : Prop where
  live : t.live = s.live
  files : t.files = s.files
  tables : t.tables = s.tables
  alive : ∀ q, P q → (t.heap q).isSome = true
  kept : ∀ q, P q → t.identAt q = s.identAt q
  fresh : ∀ q, t.next ≤ q → t.heap q = none

/-- Closing the inodes with these numbers frees nothing that is in use. -/
def Affords (P : Nat → Prop) (s : State) (nrs : List Nat) : Prop :=
  ∀ q x, P q → s.heap q = some (.inode x) → q ∈ s.openInodes → nrs.count x.iNum ≤ x.slack

variable {P : Nat → Prop} {nrs : List Nat}

theorem Walked.trans (h : Walked P s t) (h' : Walked P t u) : Walked P s u :=
  ⟨h'.live.trans h.live, h'.files.trans h.files, h'.tables.trans h.tables, h'.alive,
    fun q hq => (h'.kept q hq).trans (h.kept q hq), h'.fresh⟩

theorem Walked.refl (hP : ∀ q, P q → (s.heap q).isSome = true)
    (hf : ∀ q, s.next ≤ q → s.heap q = none) : Walked P s s :=
  ⟨rfl, rfl, rfl, hP, fun _ _ => rfl, hf⟩

theorem Adds.walked (h : Adds s t) (hP : ∀ q, P q → (s.heap q).isSome = true) : Walked P s t := by
  refine ⟨h.live, h.files, h.tables, fun q hq => ?_, fun q hq => ?_, h.fresh⟩
  · rw [h.heap q (hP q hq)]
    exact hP q hq
  · rw [State.identAt, h.heap q (hP q hq), State.identAt]

theorem Adds.affords (h : Adds s t) (hP : ∀ q, P q → (s.heap q).isSome = true)
    (ha : Affords P s nrs) : Affords P t nrs := by
  intro q x hq hx ho
  rw [h.heap q (hP q hq)] at hx
  exact ha q x hq hx ((h.opens q (hP q hq)).mp ho)

theorem dec16_of_ne {n : Nat} (h : n ≠ 0) : dec16 n = n - 1 := if_neg h

/-- The inode at `q` was closed once. -/
structure Lowered (s : State) (q : Nat) (x : Inode) (t : State) : Prop where
  live : t.live = s.live
  files : t.files = s.files
  tables : t.tables = s.tables
  page : t.page = s.page
  others : ∀ r, r ≠ q → t.heap r = s.heap r
  self : x.slack ≠ 0 → t.heap q = some (.inode { x with iCount := x.slack })
  opens : ∀ r ∈ t.openInodes, r ∈ s.openInodes
  fresh : (∀ r, s.next ≤ r → s.heap r = none) → ∀ r, t.next ≤ r → t.heap r = none

theorem wp_inodeClose {x : Inode} (hx : s.heap q = some (.inode x)) :
    wp Any (inodeClose q) (fun _ t => Lowered s q x t) s := by
  have hat : inodeAt q s = .ok (x, s) := by
    unfold inodeAt
    rw [hx]
  unfold inodeClose
  simp only [wp_bind, wp_of_ok hat]
  by_cases hz : dec16 x.iCount = 0
  · rw [if_pos hz]
    simp only [wp_bind, wp_get, wp_check, wp_modify, wp_freeObj]
    refine ⟨fun _ => ?_, fun _ => trivial⟩
    refine ⟨rfl, rfl, rfl, rfl, fun r hr => Function.update_of_ne hr .., fun hne => absurd hz hne,
      fun r hr => List.mem_of_mem_erase hr, fun hf r hr => ?_⟩
    change Function.update s.heap q none r = none
    by_cases hrq : r = q
    · rw [hrq, Function.update_self]
    · rw [Function.update_of_ne hrq]
      exact hf r hr
  · rw [if_neg hz, wp_setInode]
    refine ⟨rfl, rfl, rfl, rfl, fun r hr => Function.update_of_ne hr .., fun _ => ?_, fun r hr => hr,
      fun hf r hr => ?_⟩
    · exact Function.update_self ..
    · change Function.update s.heap q _ r = none
      have hrq : r ≠ q := by
        rintro rfl
        rw [hf r hr] at hx
        cases hx
      rw [Function.update_of_ne hrq]
      exact hf r hr

/-- Only the last reference to an inode frees it. -/
theorem Lowered.kept {x : Inode} (h : Lowered s q x t) (hx : s.heap q = some (.inode x)) {r : Nat}
    (hr : r = q → x.slack ≠ 0) (ha : (s.heap r).isSome = true) :
    (t.heap r).isSome = true ∧ t.identAt r = s.identAt r := by
  unfold State.identAt
  by_cases hrq : r = q
  · subst hrq
    rw [h.self (hr rfl), hx]
    exact ⟨rfl, rfl⟩
  · rw [h.others r hrq]
    exact ⟨ha, rfl⟩

theorem Lowered.walked {x : Inode} (h : Lowered s q x t) (hx : s.heap q = some (.inode x))
    (hP : ∀ q, P q → (s.heap q).isSome = true) (hf : ∀ q, s.next ≤ q → s.heap q = none)
    (hq : P q → x.slack ≠ 0) : Walked P s t := by
  have hkept : ∀ r, P r → (t.heap r).isSome = true ∧ t.identAt r = s.identAt r := fun r hr =>
    h.kept hx (fun he => hq (he ▸ hr)) (hP r hr)
  exact ⟨h.live, h.files, h.tables, fun r hr => (hkept r hr).1, fun r hr => (hkept r hr).2,
    h.fresh hf⟩

theorem Lowered.affords {x : Inode} (h : Lowered s q x t) (hx : s.heap q = some (.inode x))
    (ho : q ∈ s.openInodes) (ha : Affords P s (x.iNum :: nrs)) :
    (P q → x.slack ≠ 0) ∧ Affords P t nrs := by
  have hone : P q → nrs.count x.iNum + 1 ≤ x.slack := by
    intro hq
    have hle := ha q x hq hx ho
    rwa [List.count_cons_self] at hle
  have hslack : P q → x.slack ≠ 0 := fun hq hz => by
    have := hone hq
    omega
  refine ⟨hslack, fun r y hr hy hm => ?_⟩
  by_cases hrq : r = q
  · subst hrq
    rw [h.self (hslack hr)] at hy
    cases hy
    change nrs.count x.iNum ≤ dec16 x.slack
    rw [dec16_of_ne (hslack hr)]
    exact Nat.le_sub_of_add_le (hone hr)
  · rw [h.others r hrq] at hy
    exact (List.count_le_count_cons).trans (ha r y hr hy (h.opens r hm))

/-- The directory that the walk is at can be closed. -/
def At (s : State) (d : Option Nat) (pend : List Nat) : Prop :=
  match d with
  | none => pend = []
  | some q => q ∈ s.openInodes ∧ ∃ x, s.heap q = some (.inode x) ∧ pend = [x.iNum]

theorem Adds.at {d : Option Nat} {pend : List Nat} (h : Adds s t) (hd : At s d pend) :
    At t d pend := by
  cases d with
  | none => exact hd
  | some q =>
    obtain ⟨ho, x, hx, hp⟩ := hd
    have hs : (s.heap q).isSome = true := by simp [hx]
    exact ⟨(h.opens q hs).mpr ho, x, (h.heap q hs).trans hx, hp⟩

theorem wp_dirClose {d : Option Nat} {pend : List Nat}
    (hP : ∀ q, P q → (s.heap q).isSome = true) (hf : ∀ q, s.next ≤ q → s.heap q = none)
    (hd : At s d pend) (ha : Affords P s (pend ++ nrs)) :
    wp Any (dirClose d) (fun _ t => Walked P s t ∧ Affords P t nrs) s := by
  cases d with
  | none =>
    cases hd
    exact ⟨.refl hP hf, ha⟩
  | some q =>
    obtain ⟨ho, x, hx, rfl⟩ := hd
    refine wp_mono (wp_inodeClose hx) ?_
    intro _ t h
    obtain ⟨hq, ha'⟩ := h.affords hx ho ha
    exact ⟨h.walked hx hP hf hq, ha'⟩

theorem wp_searchFile {Q : Unit → State → Prop} {d : Option Nat} (h : Q () s) :
    wp Any (searchFile d) Q s := by
  cases d with
  | none =>
    simp only [searchFile, dirInode, wp_bind, wp_get, wp_pure, wp_inodeAt]
    exact fun _ _ => h
  | some q =>
    simp only [searchFile, dirInode, wp_bind, wp_pure, wp_inodeAt]
    exact fun _ _ => h

/-- The walk closes the directories it leaves; `f` is what it may close of those to come, all or all
but the last. -/
theorem wp_openWalk {disk : Nat → Inode} {f : List Nat → List Nat} {d : Option Nat}
    {pend dirs : List Nat} (hcons : ∀ a b l, f (a :: b :: l) = a :: f (b :: l))
    (hP : ∀ q, P q → (s.heap q).isSome = true) (hf : ∀ q, s.next ≤ q → s.heap q = none)
    (hd : At s d pend) (ha : Affords P s (f (pend ++ dirs))) :
    wp Any (openWalk disk d dirs) (fun d' t => Walked P s t ∧
      ∃ pend', At t d' pend' ∧ Affords P t (f pend')) s := by
  induction dirs generalizing s d pend with
  | nil =>
    rw [List.append_nil] at ha
    exact ⟨.refl hP hf, pend, hd, ha⟩
  | cons nr dirs ih =>
    simp only [openWalk, wp_bind]
    refine wp_searchFile ?_
    have hsplit : f (pend ++ nr :: dirs) = pend ++ f (nr :: dirs) := by
      cases d with
      | none =>
        cases hd
        rfl
      | some q =>
        obtain ⟨-, x, -, rfl⟩ := hd
        exact hcons ..
    rw [hsplit] at ha
    refine wp_mono (wp_dirClose hP hf hd ha) ?_
    rintro _ t ⟨hw, ha'⟩
    refine wp_mono (wp_inodeOpen hw.fresh) ?_
    rintro q u ⟨hadd, ho, x, hx, rfl⟩
    have hu := hadd.walked (P := P) hw.alive
    refine wp_mono (ih hu.alive hu.fresh ⟨ho, x, hx, rfl⟩ (hadd.affords hw.alive ha')) ?_
    rintro d' v ⟨hv, hend⟩
    exact ⟨(hw.trans hu).trans hv, hend⟩

/-! ## New descriptors -/

/-- The process `p` has new descriptors, for slots that were free. -/
structure Opened (P : Nat → Prop) (p : Nat) (s t : State) : Prop where
  live : t.live = s.live
  files : ∀ g, (s.files g).fdInode.isSome = true → t.files g = s.files g
  pos : (∀ g, (s.files g).fdPos < 2 ^ 32) → ∀ g, (t.files g).fdPos < 2 ^ 32
  alive : ∀ q, P q → (t.heap q).isSome = true
  kept : ∀ q, P q → t.identAt q = s.identAt q
  fresh : ∀ q, t.next ≤ q → t.heap q = none
  old : ∀ p' fd g, s.tables p' fd = some g → t.tables p' fd = some g
  entries : ∀ p' fd g, t.tables p' fd = some g → s.tables p' fd = none →
    p' = p ∧ 3 ≤ fd ∧ fd < maxFilesOpenPerProc ∧ g < maxFileOpen ∧ (s.files g).fdInode = none ∧
      (t.denotes g).isSome = true
  twice : ∀ p' fd fd' g, t.tables p' fd = some g → s.tables p' fd = none →
    t.tables p' fd' = some g → s.tables p' fd' = none → fd ≠ fd' → (t.files g).fdFlag = pipeFlag

theorem Walked.opened (h : Walked P s t) (p : Nat) : Opened P p s t := by
  have htab : ∀ p' fd g, t.tables p' fd = some g → s.tables p' fd = none → False := by
    intro p' fd g hg hn
    rw [h.tables, hn] at hg
    cases hg
  refine ⟨h.live, fun g _ => by rw [h.files], fun hp g => by rw [h.files]; exact hp g, h.alive, h.kept,
    h.fresh, fun p' fd g hg => by rwa [h.tables], fun p' fd g hg hn => (htab p' fd g hg hn).elim,
    fun p' fd _ g hg hn _ _ _ => (htab p' fd g hg hn).elim⟩

/-- A free slot is filled. -/
theorem Walked.fill {f : File} (h : Walked P s t) (hg : (s.files g).fdInode = none)
    (hf : f.fdPos < 2 ^ 32) (p : Nat) : Opened P p s (t.setFile g f) := by
  have ho := h.opened p
  refine ⟨ho.live, fun g' hg' => ?_, fun hp g' => ?_, ho.alive, ho.kept, ho.fresh, ho.old,
    fun p' fd g' he hn => ?_, fun p' fd _ g' he hn _ _ _ => ?_⟩
  · have hne : g' ≠ g := by
      rintro rfl
      rw [hg] at hg'
      cases hg'
    exact (Function.update_of_ne hne ..).trans (ho.files g' hg')
  · change (Function.update t.files g f g').fdPos < 2 ^ 32
    by_cases hgg : g' = g
    · rw [hgg, Function.update_self]
      exact hf
    · rw [Function.update_of_ne hgg]
      exact ho.pos hp g'
  all_goals
    change t.tables p' fd = some g' at he
    rw [h.tables, hn] at he
    cases he

/-- A slot that was free gets a descriptor. -/
theorem Opened.install (h : Opened P p s t) (hg : g < maxFileOpen) (hfree : (s.files g).fdInode = none)
    (hd : (t.denotes g).isSome = true) (ht : t.tables = s.tables ∨ (t.files g).fdFlag = pipeFlag) :
    wp Any (installThreadFd p (some g)) (fun _ u => Opened P p s u ∧ u.files = t.files ∧
      u.heap = t.heap) t := by
  refine wp_installThreadFd (fun _ => ⟨h, rfl, rfl⟩) fun fd hlo hhi hnone => ?_
  have htab : ∀ p' fd' g', (t.setEntry p fd (some g)).tables p' fd' = some g' →
      t.tables p' fd' = some g' ∨ p' = p ∧ fd' = fd ∧ g' = g := by
    intro p' fd' g' he
    change Function.update t.tables p (Function.update (t.tables p) fd (some g)) p' fd' = _ at he
    by_cases hp : p' = p
    · subst hp
      rw [Function.update_self] at he
      by_cases hfd : fd' = fd
      · subst hfd
        rw [Function.update_self] at he
        cases he
        exact .inr ⟨rfl, rfl, rfl⟩
      · rw [Function.update_of_ne hfd] at he
        exact .inl he
    · rw [Function.update_of_ne hp] at he
      exact .inl he
  have hkeep : ∀ p' fd' g', t.tables p' fd' = some g' →
      (t.setEntry p fd (some g)).tables p' fd' = some g' := by
    intro p' fd' g' he
    change Function.update t.tables p (Function.update (t.tables p) fd (some g)) p' fd' = _
    by_cases hp : p' = p
    · subst hp
      have hfd : fd' ≠ fd := by
        rintro rfl
        rw [hnone] at he
        cases he
      rw [Function.update_self, Function.update_of_ne hfd]
      exact he
    · rw [Function.update_of_ne hp]
      exact he
  refine ⟨⟨h.live, h.files, h.pos, h.alive, h.kept, h.fresh,
    fun p' fd' g' he => hkeep p' fd' g' (h.old p' fd' g' he), ?_, ?_⟩, rfl, rfl⟩
  · intro p' fd' g' he hn
    rcases htab p' fd' g' he with he | ⟨rfl, rfl, rfl⟩
    · exact h.entries p' fd' g' he hn
    · exact ⟨rfl, hlo, hhi, hg, hfree, hd⟩
  · intro p' fd' fd'' g' he hn he' hn' hne
    rcases htab p' fd' g' he with hold | ⟨rfl, rfl, rfl⟩
    · rcases htab p' fd'' g' he' with hold' | ⟨rfl, rfl, rfl⟩
      · exact h.twice p' fd' fd'' g' hold hn hold' hn' hne
      · refine ht.resolve_left fun ht => ?_
        rw [ht, hn] at hold
        cases hold
    · rcases htab p' fd'' g' he' with hold' | ⟨-, rfl, -⟩
      · refine ht.resolve_left fun ht => ?_
        rw [ht, hn'] at hold'
        cases hold'
      · exact absurd rfl hne

theorem wp_installNone {Q : Option Nat → State → Prop} (h : ∀ fd, Q fd s) :
    wp Any (installThreadFd p none) Q s := by
  refine wp_installThreadFd (fun _ => h none) fun fd _ _ hn => ?_
  have hs : s.setEntry p fd none = s := by
    unfold State.setEntry
    rw [← hn, Function.update_eq_self, Function.update_eq_self]
  rw [hs]
  exact h _

/-- An inode changes in its count or its lock. -/
theorem Opened.touch {x x' : Inode} (h : Opened P p s t) (hx : t.heap q = some (.inode x))
    (hn : x'.ident = x.ident) : Opened P p s (t.setObj q (some (.inode x'))) := by
  have hnum : ∀ r, (t.setObj q (some (.inode x'))).identAt r = t.identAt r := by
    intro r
    change (Function.update t.heap q _ r).map Obj.ident = (t.heap r).map Obj.ident
    by_cases hr : r = q
    · subst hr
      rw [Function.update_self, hx]
      exact congrArg (fun n => some (some n)) hn
    · rw [Function.update_of_ne hr]
  have hden : ∀ g, (t.setObj q (some (.inode x'))).denotes g = t.denotes g :=
    fun g => State.denotes_congr rfl fun r _ => hnum r
  refine ⟨h.live, h.files, h.pos, fun r hr => ?_, fun r hr => (hnum r).trans (h.kept r hr),
    fun r hr => ?_, h.old, fun p' fd g' he hne => ?_, h.twice⟩
  · change (Function.update t.heap q _ r).isSome = true
    by_cases hrq : r = q
    · rw [hrq, Function.update_self]
      rfl
    · rw [Function.update_of_ne hrq]
      exact h.alive r hr
  · change Function.update t.heap q _ r = none
    have hrq : r ≠ q := by
      rintro rfl
      rw [h.fresh r hr] at hx
      cases hx
    rw [Function.update_of_ne hrq]
    exact h.fresh r hr
  · rw [hden]
    exact h.entries p' fd g' he hne

/-- The directory of a new file is closed. -/
theorem Opened.lowered {x : Inode} (h : Opened P p s t) (hl : Lowered t q x u)
    (hx : t.heap q = some (.inode x)) (hq : P q → x.slack ≠ 0)
    (hnew : ∀ g, (s.files g).fdInode = none → (t.files g).fdInode ≠ some q) : Opened P p s u := by
  have hkept : ∀ r, P r → (u.heap r).isSome = true ∧ u.identAt r = t.identAt r := fun r hr =>
    hl.kept hx (fun he => hq (he ▸ hr)) (h.alive r hr)
  refine ⟨hl.live.trans h.live, fun g hg => by rw [hl.files, h.files g hg],
    fun hp g => by rw [hl.files]; exact h.pos hp g, fun r hr => (hkept r hr).1,
    fun r hr => (hkept r hr).2.trans (h.kept r hr), hl.fresh h.fresh,
    fun p' fd g he => by rw [hl.tables]; exact h.old p' fd g he, ?_, ?_⟩
  · intro p' fd g he hn
    rw [hl.tables] at he
    obtain ⟨hp, hlo, hhi, hg, hfree, hd⟩ := h.entries p' fd g he hn
    refine ⟨hp, hlo, hhi, hg, hfree, ?_⟩
    rw [State.denotes_isSome] at hd ⊢
    obtain ⟨r, hr, ha⟩ := hd
    refine ⟨r, by rw [hl.files]; exact hr, ?_⟩
    have hrq : r ≠ q := by
      rintro rfl
      exact hnew g hfree hr
    rw [hl.others r hrq]
    exact ha
  · intro p' fd fd' g he hn he' hn' hne
    rw [hl.tables] at he he'
    rw [hl.files]
    exact h.twice p' fd fd' g he hn he' hn' hne

end Frog.Descr
