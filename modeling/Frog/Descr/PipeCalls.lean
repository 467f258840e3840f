import Frog.Descr.Pipes

/-!
# New pipes and forks

Both add descriptors, and the count of each pipe grows with them.
-/

namespace Frog.Descr

set_option autoImplicit false
open Prog
open Fs (File Stop maxFileOpen maxFilesOpenPerProc pipeFlag)

variable {s t u : State} {p c g g' k fd q n : Nat}

/-! ## `sys_pipe` -/

theorem setEntry_tables (o : Option Nat) (p' fd' : Nat) : (s.setEntry p fd o).tables p' fd' =
    if p' = p ∧ fd' = fd then o else s.tables p' fd' := by
  by_cases hp : p' = p
  · subst hp
    simp [State.setEntry, Function.update_apply]
  · simp [State.setEntry, hp]

/-- A descriptor that was free refers to `g`. -/
theorem endsFrom_setEntry (hk : k ≤ fd) (hfd : fd < maxFilesOpenPerProc)
    (ho : s.tables p fd = none) :
    endsFrom (s.setEntry p fd (some g)) p g k = endsFrom s p g k + 1 := by
  obtain ⟨d, rfl⟩ := Nat.exists_eq_add_of_le hk
  induction d generalizing k with
  | zero =>
    have htail : endsFrom (s.setEntry p k (some g)) p g (k + 1) = endsFrom s p g (k + 1) := by
      refine endsFrom_congr fun fd' hfd' => ?_
      rw [setEntry_tables, if_neg]
      rintro ⟨-, rfl⟩
      omega
    rw [Nat.add_zero] at hfd ho ⊢
    have hnew : (s.setEntry p k (some g)).tables p k = some g := by
      rw [setEntry_tables, if_pos ⟨rfl, rfl⟩]
    have h1 := endsFrom_succ (s := s.setEntry p k (some g)) (p := p) (g := g) hfd
    have h2 := endsFrom_succ (s := s) (p := p) (g := g) hfd
    rw [if_pos hnew, htail] at h1
    rw [ho, if_neg nofun, Nat.add_zero] at h2
    rw [h1, h2]
  | succ d ih =>
    have hk' : k < maxFilesOpenPerProc := by omega
    have hne : k ≠ k + (d + 1) := by omega
    have hadd : k + (d + 1) = k + 1 + d := by omega
    have hih := ih (k := k + 1) (by omega) (hadd ▸ hfd) (hadd ▸ ho)
    have hold : (s.setEntry p (k + (d + 1)) (some g)).tables p k = s.tables p k := by
      rw [setEntry_tables, if_neg fun h => hne h.2]
    have h1 := endsFrom_succ (s := s.setEntry p (k + (d + 1)) (some g)) (p := p) (g := g) hk'
    have h2 := endsFrom_succ (s := s) (p := p) (g := g) hk'
    rw [hold, hadd, hih] at h1
    rw [hadd, h1, h2]
    omega

/-- Beside any descriptor there is another free one. -/
theorem exists_free (h : 2 ≤ freeFds s p) (fd : Nat) :
    ∃ fd', fd' ≠ fd ∧ 3 ≤ fd' ∧ fd' < maxFilesOpenPerProc ∧ s.tables p fd' = none := by
  by_contra hno
  push Not at hno
  have hsub : (List.range maxFilesOpenPerProc).filter
      (fun fd => decide (3 ≤ fd ∧ s.tables p fd = none)) ⊆ [fd] := by
    intro a ha
    obtain ⟨hlt, hf⟩ := List.mem_filter.mp ha
    simp only [decide_eq_true_eq] at hf
    by_contra hne
    exact hno a (fun he => hne (he ▸ List.mem_singleton_self _)) hf.1 (List.mem_range.mp hlt) hf.2
  have hle := (List.subperm_of_subset (List.nodup_range.filter _) hsub).length_le
  rw [← List.countP_eq_length_filter] at hle
  exact absurd (h.trans hle) (Nat.not_succ_le_self 1)

/-- A new pipe and its two descriptors. -/
def State.piped (s : State) (p g fd fd' : Nat) : State :=
  ((s.withPipe g).setEntry p fd (some g)).setEntry p fd' (some g)

theorem wp_sysPipe {room : Bool} (hfree : room = true → ∀ g, freeSlot s = some g → 2 ≤ freeFds s p) :
    wp Any (sysPipe p room) (fun _ t => t = s ∨ room = true ∧ ∃ g fd fd', freeSlot s = some g ∧
      3 ≤ fd ∧ fd < maxFilesOpenPerProc ∧ 3 ≤ fd' ∧ fd' < maxFilesOpenPerProc ∧ fd ≠ fd' ∧
      s.tables p fd = none ∧ s.tables p fd' = none ∧ t = s.piped p g fd fd') s := by
  cases hslot : freeSlot s with
  | none =>
    have hocc : wp Any occupyFileTableSlot (fun o t => o = none ∧ t = s) s := ⟨hslot, rfl⟩
    simp only [sysPipe, wp_bind]
    refine wp_mono hocc ?_
    rintro _ _ ⟨rfl, rfl⟩
    simp [Any]
  | some g =>
    have hocc : wp Any occupyFileTableSlot (fun o t => o = some g ∧ t = s) s := ⟨hslot, rfl⟩
    simp only [sysPipe, wp_bind]
    refine wp_mono hocc ?_
    rintro _ _ ⟨rfl, rfl⟩
    cases room with
    | false => simp
    | true =>
      have h2 := hfree rfl g hslot
      simp only [wp_need, wp_bind, wp_newObj, wp_setFile, if_true, wp_pure, Option.some.injEq]
      refine ⟨?_, by simp⟩
      rintro _ rfl
      refine wp_installThreadFd (fun hno => ?_) fun fd h3 hlt hfd => ?_
      · obtain ⟨fd, -, h3, hlt, hfd⟩ := exists_free h2 0
        exact absurd hfd (hno fd h3 hlt)
      · refine wp_installThreadFd (fun hno => ?_) fun fd' h3' hlt' hfd' => ?_
        · obtain ⟨fd', hne, h3', hlt', hfd'⟩ := exists_free h2 fd
          refine absurd ?_ (hno fd' h3' hlt')
          rw [setEntry_tables, if_neg fun h => hne h.2]
          exact hfd'
        · rw [setEntry_tables] at hfd'
          split at hfd'
          · cases hfd'
          · rename_i hne
            exact .inr ⟨trivial, g, fd, fd', rfl, h3, hlt, h3', hlt', fun he => hne ⟨rfl, he.symm⟩,
              hfd, hfd', rfl⟩

theorem piped_tables (p' fd'' : Nat) {fd' : Nat} : (s.piped p g fd fd').tables p' fd'' =
    if p' = p ∧ (fd'' = fd ∨ fd'' = fd') then some g else s.tables p' fd'' := by
  have h0 : (s.withPipe g).tables = s.tables := rfl
  simp only [State.piped, setEntry_tables, h0]
  by_cases hp : p' = p <;> by_cases h1 : fd'' = fd <;> by_cases h2 : fd'' = fd' <;> simp [hp, h1, h2]

theorem piped_file {fd' : Nat} : (s.piped p g fd fd').files g' =
    if g' = g then { fdPos := 2, fdFlag := pipeFlag, fdInode := some s.next } else s.files g' :=
  Function.update_apply ..

theorem piped_heap {fd' : Nat} : (s.piped p g fd fd').heap q =
    if q = s.next then some .queue else s.heap q := Function.update_apply ..

/-- Nobody has a descriptor of the slot. -/
theorem endsFrom_of_refs (hrefs : refs s g = 0) : ∀ p' ∈ s.live, endsFrom s p' g 0 = 0 :=
  fun _ hp' => Nat.eq_zero_of_le_zero ((endsFrom_le_refs hp').trans_eq hrefs)

theorem endsFrom_piped {fd' : Nat} (hlt : fd < maxFilesOpenPerProc) (hlt' : fd' < maxFilesOpenPerProc)
    (hne : fd ≠ fd') (hfd : s.tables p fd = none) (hfd' : s.tables p fd' = none) :
    endsFrom (s.piped p g fd fd') p g 0 = endsFrom s p g 0 + 2 := by
  have h1 : endsFrom ((s.withPipe g).setEntry p fd (some g)) p g 0 =
      endsFrom s p g 0 + 1 := endsFrom_setEntry (Nat.zero_le _) hlt hfd
  have hfree : ((s.withPipe g).setEntry p fd (some g)).tables p fd' = none := by
    rw [setEntry_tables, if_neg fun he => hne he.2.symm]
    exact hfd'
  rw [State.piped, endsFrom_setEntry (Nat.zero_le _) hlt' hfree, h1]

/-- The entries of the other slots stay. -/
theorem piped_entry_iff {fd' p' fd'' : Nat} (hfd : s.tables p fd = none) (hfd' : s.tables p fd' = none)
    (hgg : g' ≠ g) : (s.piped p g fd fd').tables p' fd'' = some g' ↔ s.tables p' fd'' = some g' := by
  rw [piped_tables]
  split
  · rename_i he
    have hnone : s.tables p' fd'' = none := by
      rcases he with ⟨rfl, rfl | rfl⟩
      · exact hfd
      · exact hfd'
    rw [hnone, Option.some.injEq]
    exact iff_of_false hgg.symm nofun
  · exact Iff.rfl

theorem isPipe_piped {fd' : Nat} (hg : IsPipe (s.piped p g fd fd') g' q) :
    g' = g ∧ q = s.next ∨ g' ≠ g ∧ IsPipe s g' q := by
  obtain ⟨hflag, hino⟩ := hg
  rw [piped_file] at hflag hino
  split at hflag
  · rename_i hgg
    rw [if_pos hgg] at hino
    exact .inl ⟨hgg, (Option.some.inj hino).symm⟩
  · rename_i hgg
    rw [if_neg hgg] at hino
    exact .inr ⟨hgg, hflag, hino⟩

/-- A pipe that was there is in another slot and has another queue than the new one. -/
theorem Counted.pipe_ne (h : Counted s) (hvac : (s.files g).fdInode = none) (hg : IsPipe s g' q) :
    g' ≠ g ∧ q ≠ s.next := by
  refine ⟨fun he => ?_, fun he => ?_⟩
  · rw [he] at hg
    exact nomatch hvac.symm.trans hg.inode
  · have hal := h.alive g' q hg
    rw [he, h.fresh _ (Nat.le_refl _)] at hal
    cases hal

theorem Counted.three_le (h : Counted s) (hp : p ∈ s.live) (hrefs : refs s g = 0) : 3 ≤ g := by
  by_contra hlt
  have hstd := h.std p hp g (Nat.not_le.mp hlt)
  have hpos : 0 < endsFrom s p g 0 :=
    endsFrom_pos.mpr ⟨g, Nat.zero_le _, (Nat.not_le.mp hlt).trans (by decide), hstd⟩
  exact hpos.ne' (endsFrom_of_refs hrefs p hp)

/-- A pipe in a slot that nobody refers to, with both descriptors. -/
theorem Counted.piped (h : Counted s) {fd' : Nat} (hp : p ∈ s.live) (hslot : freeSlot s = some g)
    (hrefs : refs s g = 0) (h3 : 3 ≤ fd) (hlt : fd < maxFilesOpenPerProc) (h3' : 3 ≤ fd')
    (hlt' : fd' < maxFilesOpenPerProc) (hne : fd ≠ fd') (hfd : s.tables p fd = none)
    (hfd' : s.tables p fd' = none) (hn : s.page s.next = some n)
    (hown : ∀ q, (s.heap q).isSome = true → s.page q ≠ some n) :
    Counted (s.piped p g fd fd') ∧ PipeLaw s (s.piped p g fd fd') := by
  have hvac : (s.files g).fdInode = none := by simpa using List.find?_some hslot
  have hnobody := endsFrom_of_refs hrefs
  have hends := endsFrom_piped (g := g) hlt hlt' hne hfd hfd'
  have hself : refs (s.piped p g fd fd') g = 2 := by
    have hsum := refs_others (t := s.piped p g fd fd') (g := g) h.nodup rfl hp fun p' _ hpp fd'' => by
      rw [piped_tables, if_neg fun he => hpp he.1]
    omega
  have hother : ∀ g', g' ≠ g → refs (s.piped p g fd fd') g' = refs s g' := fun g' hgg =>
    refs_congr rfl fun p' _ fd'' => piped_entry_iff hfd hfd' hgg
  refine ⟨⟨h.nodup, h.bound, fun p' hp' fd'' hlt'' => ?_, fun r hr => ?_, fun g' q hg => ?_,
    fun g' g'' q hg hg' => ?_, fun g' q hg => ?_, fun g' q hg p' hp' => ?_, fun g' q hg => ?_,
    fun g' q hg => ?_, fun g' hg hv => ?_⟩, law_of_keep rfl fun g' q hg => ?_⟩
  · rw [piped_tables, if_neg]
    · exact h.std p' hp' fd'' hlt''
    · rintro ⟨-, rfl | rfl⟩ <;> omega
  · have hr' : s.next < r := hr
    rw [piped_heap, if_neg hr'.ne']
    exact h.fresh r hr'.le
  · rcases isPipe_piped hg with ⟨rfl, -⟩ | ⟨-, hg⟩
    · exact h.three_le hp hrefs
    · exact h.low g' q hg
  · rcases isPipe_piped hg with ⟨hgg, hq⟩ | ⟨-, h1⟩ <;>
      rcases isPipe_piped hg' with ⟨hgg', hq'⟩ | ⟨-, h2⟩
    · rw [hgg, hgg']
    · exact absurd hq (h.pipe_ne hvac h2).2
    · exact absurd hq' (h.pipe_ne hvac h1).2
    · exact h.inj g' g'' q h1 h2
  · rw [piped_file]
    rcases isPipe_piped hg with ⟨rfl, -⟩ | ⟨hgg, hg⟩
    · rw [if_pos rfl, hself]
      exact ⟨rfl, Nat.two_pos⟩
    · rw [if_neg hgg, hother g' hgg]
      exact h.count g' q hg
  · rcases isPipe_piped hg with ⟨rfl, -⟩ | ⟨hgg, hg⟩
    · by_cases hpp : p' = p
      · rw [hpp, hends, hnobody p hp]
      · have hsame : endsFrom (s.piped p g' fd fd') p' g' 0 = endsFrom s p' g' 0 :=
          endsFrom_congr fun fd'' _ => by rw [piped_tables, if_neg fun he => hpp he.1]
        rw [hsame, hnobody p' hp']
        exact Nat.dvd_zero 2
    · have hsame : endsFrom (s.piped p g fd fd') p' g' 0 = endsFrom s p' g' 0 :=
        endsFrom_congr fun fd'' _ => piped_entry_iff hfd hfd' hgg
      rw [hsame]
      exact h.even g' q hg p' hp'
  · rw [piped_heap]
    rcases isPipe_piped hg with ⟨-, rfl⟩ | ⟨-, hg⟩
    · rw [if_pos rfl]
    · rw [if_neg (h.pipe_ne hvac hg).2]
      exact h.alive g' q hg
  · rcases isPipe_piped hg with ⟨-, rfl⟩ | ⟨-, hg⟩
    · refine ⟨n, hn, fun r hr hpr => ?_⟩
      rw [piped_heap] at hr
      split at hr
      · assumption
      · exact absurd hpr (hown r hr)
    · obtain ⟨n', hn', hown'⟩ := h.page g' q hg
      refine ⟨n', hn', fun r hr hpr => ?_⟩
      rw [piped_heap] at hr
      split at hr
      · rename_i hrn
        have hpn : s.page r = some n' := hpr
        rw [hrn, hn] at hpn
        cases hpn
        exact absurd hn' (hown q (by rw [h.alive g' q hg]; rfl))
      · exact hown' r hr hpr
  · rw [piped_file] at hg hv
    split at hv
    · cases hv
    · rename_i hgg
      rw [if_neg hgg] at hg
      rw [hother g' hgg]
      exact h.vacant g' hg hv
  · obtain ⟨hgg, hqn⟩ := h.pipe_ne hvac hg
    rw [piped_heap, if_neg hqn, piped_file, if_neg hgg, hother g' hgg]
    exact ⟨h.alive g' q hg, hg.inode, (h.count g' q hg).2⟩

/-! ## `sys_fork` -/

/-- The count of each slot grows by `d`. -/
structure Grown (s t : State) (d : Nat → Nat) : Prop where
  live : t.live = s.live
  page : t.page = s.page
  freed : t.freed = s.freed
  next : t.next = s.next
  tables : t.tables = s.tables
  flag : ∀ g, (t.files g).fdFlag = (s.files g).fdFlag
  inode : ∀ g, (t.files g).fdInode = (s.files g).fdInode
  pos : ∀ g, (s.files g).fdFlag = pipeFlag → (s.files g).fdPos + d g < 2 ^ 32 →
    (t.files g).fdPos = (s.files g).fdPos + d g
  queues : ∀ q, s.heap q = some .queue → t.heap q = some .queue
  same : ∀ q, (t.heap q).isSome = (s.heap q).isSome

variable {d d' : Nat → Nat}

theorem Grown.refl (s : State) : Grown s s fun _ => 0 :=
  ⟨rfl, rfl, rfl, rfl, rfl, fun _ => rfl, fun _ => rfl, fun _ _ _ => rfl, fun _ => id, fun _ => rfl⟩

theorem Grown.trans (h : Grown s t d) (h' : Grown t u d') : Grown s u fun g => d g + d' g := by
  refine ⟨h'.live.trans h.live, h'.page.trans h.page, h'.freed.trans h.freed, h'.next.trans h.next,
    h'.tables.trans h.tables, fun g => (h'.flag g).trans (h.flag g),
    fun g => (h'.inode g).trans (h.inode g), fun g hg hlt => ?_,
    fun q hq => h'.queues q (h.queues q hq), fun q => (h'.same q).trans (h.same q)⟩
  have h1 := h.pos g hg (by omega)
  have h2 := h'.pos g ((h.flag g).trans hg) (by omega)
  omega

theorem wp_updateOpenCnt : wp Any (updateOpenCnt g)
    (fun _ t => Grown s t fun g' => if g = g' then 1 else 0) s := by
  simp only [updateOpenCnt, wp_bind, wp_check, wp_fileAt, wp_ite, wp_setFile, wp_need, wp_inodeAt,
    wp_setInode, implies_true, and_true]
  refine fun _ => ⟨fun hflag => ?_, fun hflag q hq x hx => ?_⟩
  · have hfile : ∀ g', (s.setFile g { s.files g with fdPos := Fs.u32 ((s.files g).fdPos + 1) }).files g'
        = if g' = g then { s.files g with fdPos := Fs.u32 ((s.files g).fdPos + 1) }
          else s.files g' := fun g' => Function.update_apply ..
    refine ⟨rfl, rfl, rfl, rfl, rfl, fun g' => ?_, fun g' => ?_, fun g' _ hlt => ?_, fun _ => id,
      fun _ => rfl⟩
    · rw [hfile]
      split
      · rename_i hg
        rw [hg]
      · rfl
    · rw [hfile]
      split
      · rename_i hg
        rw [hg]
      · rfl
    · rw [hfile]
      by_cases hg : g' = g
      · rw [hg, if_pos rfl] at hlt ⊢
        rw [if_pos rfl]
        exact Nat.mod_eq_of_lt hlt
      · rw [if_neg hg, if_neg (Ne.symm hg)]
        rfl
  · refine ⟨rfl, rfl, rfl, rfl, rfl, fun _ => rfl, fun _ => rfl, fun g' hg' _ => ?_, fun r hr => ?_,
      fun r => ?_⟩
    · rw [if_neg]
      · rfl
      · rintro rfl
        exact hflag hg'
    · refine (Function.update_of_ne ?_ ..).trans hr
      rintro rfl
      rw [hx] at hr
      cases hr
    · by_cases hr : r = q
      · subst hr
        rw [hx]
        exact (congrArg Option.isSome (Function.update_self r _ s.heap)).trans rfl
      · exact congrArg Option.isSome (Function.update_of_ne hr ..)

theorem wp_updateInodeOpenCnts {left : Nat} (hk : k + left = maxFilesOpenPerProc) :
    wp Any (updateInodeOpenCnts c left k)
      (fun _ t => Grown s t fun g => endsFrom s c g k) s := by
  induction left generalizing k s with
  | zero =>
    have hz : (fun g => endsFrom s c g k) = fun _ => 0 := by
      funext g
      unfold endsFrom
      rw [← hk, Nat.add_zero, Nat.sub_self]
      rfl
    rw [hz]
    exact Grown.refl s
  | succ left ih =>
    have hlt : k < maxFilesOpenPerProc := by omega
    have hsucc : ∀ g, endsFrom s c g k = (if s.tables c k = some g then 1 else 0) +
        endsFrom s c g (k + 1) := fun g => (endsFrom_succ hlt).trans (Nat.add_comm ..)
    simp only [updateInodeOpenCnts, wp_bind, wp_get]
    cases hg : s.tables c k with
    | none =>
      refine wp_mono (ih (by omega)) fun _ t ht => ?_
      have heq : (fun g => endsFrom s c g k) = fun g => endsFrom s c g (k + 1) := by
        funext g
        rw [hsucc, hg, if_neg (by simp), Nat.zero_add]
      exact heq ▸ ht
    | some g =>
      simp only [wp_bind]
      refine wp_mono wp_updateOpenCnt fun _ t ht => ?_
      refine wp_mono (ih (by omega)) fun _ u hu => ?_
      have heq : (fun g' => endsFrom s c g' k) =
          fun g' => (if g = g' then 1 else 0) + endsFrom t c g' (k + 1) := by
        funext g'
        have hrest : endsFrom t c g' (k + 1) = endsFrom s c g' (k + 1) :=
          endsFrom_congr fun fd _ => by rw [ht.tables]
        rw [hsucc, hg, hrest]
        simp only [Option.some.injEq]
      exact heq ▸ ht.trans hu

/-- A pipe is in none of the standard descriptors. -/
theorem endsFrom_low (hstd : ∀ fd < 3, s.tables p fd = some fd) (hg : 3 ≤ g) :
    endsFrom s p g 0 = endsFrom s p g 3 := by
  have hone : ∀ k, k < 3 → endsFrom s p g k = endsFrom s p g (k + 1) := by
    intro k hk
    rw [endsFrom_succ (hk.trans (by decide)), hstd k hk, if_neg, Nat.add_zero]
    rintro ⟨⟩
    omega
  rw [hone 0 (by decide), hone 1 (by decide), hone 2 (by decide)]

/-- The child counts for each pipe what its parent has. -/
theorem Counted.forked (h : Counted s) (hp : p ∈ s.live) (hc : c ∉ s.live) (hb : c ≤ maxPid) :
    wp Any (sysFork p c) (fun _ t => Counted t ∧ PipeLaw s t) s := by
  unfold sysFork
  simp only [wp_bind, wp_modify]
  generalize hs1 : ({ s with tables := Function.update s.tables c (s.tables p), live := c :: s.live } :
    State) = s1
  have htc : s1.tables c = s.tables p := hs1 ▸ Function.update_self ..
  have hto : ∀ p' ∈ s.live, s1.tables p' = s.tables p' := by
    intro p' hp'
    subst hs1
    refine Function.update_of_ne ?_ ..
    rintro rfl
    exact hc hp'
  have hlive : s1.live = c :: s.live := hs1 ▸ rfl
  have hrefs : ∀ g, refs s1 g = endsFrom s p g 0 + refs s g := by
    intro g
    rw [refs_cons hlive fun p' hp' fd => by rw [hto p' hp']]
    congr 1
    unfold endsFrom
    rw [htc]
  have hnd : s1.live.Nodup := hlive ▸ List.nodup_cons.mpr ⟨hc, h.nodup⟩
  have hbd : ∀ p' ∈ s1.live, p' ≤ maxPid := by
    rw [hlive]
    exact List.forall_mem_cons.mpr ⟨hb, h.bound⟩
  have hstd : ∀ p' ∈ s1.live, ∀ fd < 3, s1.tables p' fd = some fd := by
    rw [hlive, List.forall_mem_cons, htc]
    refine ⟨h.std p hp, fun p' hp' => ?_⟩
    rw [hto p' hp']
    exact h.std p' hp'
  refine wp_mono (wp_updateInodeOpenCnts (k := 3) rfl) fun _ t ht => ?_
  have hfiles : s1.files = s.files := hs1 ▸ rfl
  have hheap : s1.heap = s.heap := hs1 ▸ rfl
  have hpage : s1.page = s.page := hs1 ▸ rfl
  have hnext : s1.next = s.next := hs1 ▸ rfl
  have hrt : ∀ g, refs t g = refs s1 g := fun g => refs_congr ht.live fun p' _ fd => by rw [ht.tables]
  have hpipe : ∀ g q, IsPipe t g q → IsPipe s g q := by
    rintro g q ⟨hflag, hino⟩
    rw [ht.flag, hfiles] at hflag
    rw [ht.inode, hfiles] at hino
    exact ⟨hflag, hino⟩
  have hqueue : ∀ g q, IsPipe s g q → t.heap q = some .queue := fun g q hg =>
    ht.queues q (hheap ▸ h.alive g q hg)
  have hpos : ∀ g q, IsPipe s g q → 0 < refs t g := by
    intro g q hg
    rw [hrt, hrefs]
    exact Nat.add_pos_right _ (h.count g q hg).2
  refine ⟨⟨ht.live ▸ hnd, ht.live ▸ hbd, ?_, fun q hq => ?_, fun g q hg => h.low g q (hpipe g q hg),
    fun g g' q hg hg' => h.inj g g' q (hpipe g q hg) (hpipe g' q hg'), fun g q hg => ?_,
    fun g q hg p' hp' => ?_, fun g q hg => hqueue g q (hpipe g q hg), fun g q hg => ?_, fun g hg hv => ?_⟩,
    law_of_keep ?_ fun g q hg => ⟨hqueue g q hg, ?_, hpos g q hg⟩⟩
  · rw [ht.live, ht.tables]
    exact hstd
  · rw [ht.next, hnext] at hq
    have := ht.same q
    rwa [hheap, h.fresh q hq, Option.isSome_none, Option.isSome_eq_false_iff, Option.isNone_iff_eq_none]
      at this
  · have hs := hpipe g q hg
    obtain ⟨hcnt, -⟩ := h.count g q hs
    have hends : endsFrom s1 c g 3 = endsFrom s p g 0 := by
      rw [endsFrom_low (h.std p hp) (h.low g q hs)]
      unfold endsFrom
      rw [htc]
    have hsum : (s1.files g).fdPos + endsFrom s1 c g 3 = refs s1 g := by
      rw [hfiles, hcnt, hends, hrefs, Nat.add_comm]
    refine ⟨?_, hpos g q hs⟩
    rw [ht.pos g (hfiles ▸ hs.flag) (hsum ▸ refs_lt hnd hbd), hrt, hsum]
  · have heven : 2 ∣ endsFrom s1 p' g 0 := by
      have hs := hpipe g q hg
      unfold endsFrom
      rw [ht.live, hlive] at hp'
      rcases List.mem_cons.mp hp' with rfl | hmem
      · rw [htc]
        exact h.even g q hs p hp
      · rw [hto p' hmem]
        exact h.even g q hs p' hmem
    have hsame : endsFrom t p' g 0 = endsFrom s1 p' g 0 := endsFrom_congr fun fd _ => by rw [ht.tables]
    rwa [hsame]
  · obtain ⟨n, hn, hown⟩ := h.page g q (hpipe g q hg)
    rw [ht.page, hpage]
    refine ⟨n, hn, fun r hr => hown r ?_⟩
    rwa [ht.same, hheap] at hr
  · rw [ht.flag, hfiles] at hg
    rw [ht.inode, hfiles] at hv
    have hz := h.vacant g hg hv
    have hle := endsFrom_le_refs (g := g) hp
    rw [hrt, hrefs]
    omega
  · rw [ht.freed, ← hs1]
  · rw [ht.inode, hfiles]
    exact hg.inode

end Frog.Descr
