import Frog.Descr.PipeCalls

/-!
# Closed pipes and exits

What an exiting process leaves is followed down its table; from there every run that keeps the
condition has the pipes counted.
-/

namespace Frog.Descr

set_option autoImplicit false
open Prog
open Fs (File Stop maxFileOpen maxFilesOpenPerProc pipeFlag)

variable {s0 s t u : State} {p c g g' k fd q n m : Nat} {d : Nat → Nat}

/-- The pipes of `s0`, each with `d g` references left. -/
structure Left (s0 : State) (d : Nat → Nat) (s : State) : Prop where
  live : s.live = s0.live
  page : s.page = s0.page
  flags : ∀ g, (s.files g).fdFlag = (s0.files g).fdFlag
  used : ∀ g q, IsPipe s0 g q → 0 < d g → (s.files g).fdInode = some q ∧ (s.files g).fdPos = d g ∧
    s.heap q = some .queue
  done : ∀ g q, IsPipe s0 g q → d g = 0 → (s.files g).fdInode = none ∧ s.heap q = none
  vacant : ∀ g, (s0.files g).fdFlag = pipeFlag → (s0.files g).fdInode = none →
    (s.files g).fdInode = none
  gone : ∀ q, (s.heap q).isSome = true → (s0.heap q).isSome = true
  fresh : ∀ q, s.next ≤ q → s.heap q = none
  pages : ∃ l, s.freed = s0.freed ++ l ∧ l.Nodup ∧
    ∀ n, n ∈ l ↔ ∃ g q, IsPipe s0 g q ∧ s0.page q = some n ∧ d g = 0

theorem Counted.left_refl (h : Counted s) (hd : ∀ g, d g = refs s g) : Left s d s := by
  refine ⟨rfl, rfl, fun _ => rfl, fun g q hg _ => ⟨hg.inode, ?_, h.alive g q hg⟩, fun g q hg hz => ?_,
    fun _ _ => id, fun _ => id, h.fresh, [], (List.append_nil _).symm, .nil, fun n => ?_⟩
  · rw [(h.count g q hg).1, hd]
  · rw [hd] at hz
    exact absurd hz (h.count g q hg).2.ne'
  · refine iff_of_false List.not_mem_nil ?_
    rintro ⟨g, q, hg, -, hz⟩
    rw [hd] at hz
    exact (h.count g q hg).2.ne' hz

theorem Left.apart (h : Left s0 d s) (ha : Apart s t) : Left s0 d t := by
  have hfile : ∀ g, (s0.files g).fdFlag = pipeFlag → t.files g = s.files g := fun g hg =>
    ha.files g ((h.flags g).trans hg)
  refine ⟨ha.live.trans h.live, ha.page.trans h.page, fun g => (ha.flags g).trans (h.flags g),
    fun g q hg hpos => ?_, fun g q hg hz => ?_, fun g hg hv => ?_, fun q hq => h.gone q (ha.gone q hq),
    ha.fresh h.fresh, ha.freed ▸ h.pages⟩
  · rw [hfile g hg.flag]
    obtain ⟨h1, h2, h3⟩ := h.used g q hg hpos
    exact ⟨h1, h2, ha.queues q h3⟩
  · rw [hfile g hg.flag]
    obtain ⟨h1, h2⟩ := h.done g q hg hz
    refine ⟨h1, ?_⟩
    by_contra hne
    have := ha.gone q (Option.isSome_iff_ne_none.mpr hne)
    rw [h2] at this
    cases this
  · rw [hfile g hg]
    exact h.vacant g hg hv

/-- One reference less, and not the last. -/
theorem Left.lower (h : Left s0 d s) (hg : IsPipe s0 g q) (hd : d g = m + 1) (hm : m ≠ 0) :
    Left s0 (Function.update d g m) (s.setFile g { s.files g with fdPos := m }) := by
  obtain ⟨hino, -, hq⟩ := h.used g q hg (hd ▸ Nat.succ_pos m)
  have hfile : ∀ g', (s.setFile g { s.files g with fdPos := m }).files g' =
      if g' = g then { s.files g with fdPos := m } else s.files g' := fun g' =>
    Function.update_apply ..
  have hzero : ∀ g', Function.update d g m g' = 0 ↔ d g' = 0 := by
    intro g'
    by_cases hgg : g' = g
    · subst hgg
      rw [Function.update_self, hd]
      omega
    · rw [Function.update_of_ne hgg]
  refine ⟨h.live, h.page, fun g' => ?_, fun g' q' hg' hpos => ?_, fun g' q' hg' hz => ?_,
    fun g' hg' hv => ?_, h.gone, h.fresh, ?_⟩
  · rw [hfile]
    split
    · rename_i hgg
      rw [hgg]
      exact h.flags g
    · exact h.flags g'
  · by_cases hgg : g' = g
    · subst hgg
      rw [hfile, if_pos rfl, Function.update_self]
      cases Option.some.inj (hg'.inode.symm.trans hg.inode)
      exact ⟨hino, rfl, hq⟩
    · rw [hfile, if_neg hgg, Function.update_of_ne hgg]
      rw [Function.update_of_ne hgg] at hpos
      exact h.used g' q' hg' hpos
  · have hz' := (hzero g').mp hz
    have hgg : g' ≠ g := by
      rintro rfl
      omega
    rw [hfile, if_neg hgg]
    exact h.done g' q' hg' hz'
  · have hgg : g' ≠ g := by
      rintro rfl
      exact Option.some_ne_none _ (hg.inode.symm.trans hv)
    rw [hfile, if_neg hgg]
    exact h.vacant g' hg' hv
  · simp only [hzero]
    exact h.pages

/-- A page is given back. -/
def State.dropPage (s : State) (n : Nat) : State :=
  { s with
    heap := fun r => if s.page r = some n then none else s.heap r
    freed := s.freed ++ [n] }

/-- The last descriptor of the pipe in the slot `g` is gone. -/
def State.released (s : State) (g n : Nat) : State :=
  let t := (s.setFile g { s.files g with fdPos := 0 }).dropPage n
  t.setFile g { t.files g with fdInode := none }

theorem Left.release (h : Left s0 d s) (hs : Counted s0) (hg : IsPipe s0 g q) (hd : d g = 1)
    (hn : s0.page q = some n) : Left s0 (Function.update d g 0) (s.released g n) := by
  obtain ⟨n', hn', hown⟩ := hs.page g q hg
  cases hn.symm.trans hn'
  have hheap : ∀ r, (s.released g n).heap r = if s.page r = some n then none else s.heap r :=
    fun _ => rfl
  have hkeep : ∀ r, r ≠ q → s.heap r = (s.released g n).heap r := by
    intro r hr
    rw [hheap]
    split
    · rename_i hpr
      by_contra hne
      have hsome : (s.heap r).isSome = true := Option.isSome_iff_ne_none.mpr hne
      exact hr (hown r (h.gone r hsome) (h.page ▸ hpr))
    · rfl
  have hself : (s.released g n).heap q = none := by
    rw [hheap, if_pos (h.page ▸ hn)]
  have hfile : ∀ g', g' ≠ g → (s.released g n).files g' = s.files g' := fun g' hgg =>
    (Function.update_of_ne hgg ..).trans (Function.update_of_ne hgg ..)
  have hfileg : (s.released g n).files g = ⟨0, (s.files g).fdFlag, none⟩ := by
    simp [State.released, State.dropPage, State.setFile]
  have hother : ∀ g' q', g' ≠ g → IsPipe s0 g' q' → q' ≠ q := by
    rintro g' q' hgg hg' rfl
    exact hgg (hs.inj g' g q' hg' hg)
  refine ⟨h.live, h.page, fun g' => ?_, fun g' q' hg' hpos => ?_, fun g' q' hg' hz => ?_,
    fun g' hg' hv => ?_, fun r hr => ?_, fun r hr => ?_, ?_⟩
  · by_cases hgg : g' = g
    · rw [hgg, hfileg]
      exact h.flags g
    · rw [hfile g' hgg]
      exact h.flags g'
  · have hgg : g' ≠ g := by
      rintro rfl
      rw [Function.update_self] at hpos
      exact absurd hpos (Nat.lt_irrefl 0)
    rw [Function.update_of_ne hgg] at hpos ⊢
    rw [hfile g' hgg, ← hkeep q' (hother g' q' hgg hg')]
    exact h.used g' q' hg' hpos
  · by_cases hgg : g' = g
    · subst hgg
      cases Option.some.inj (hg'.inode.symm.trans hg.inode)
      exact ⟨congrArg File.fdInode hfileg, hself⟩
    · rw [Function.update_of_ne hgg] at hz
      rw [hfile g' hgg, ← hkeep q' (hother g' q' hgg hg')]
      exact h.done g' q' hg' hz
  · have hgg : g' ≠ g := by
      rintro rfl
      exact Option.some_ne_none _ (hg.inode.symm.trans hv)
    rw [hfile g' hgg]
    exact h.vacant g' hg' hv
  · refine h.gone r ?_
    rw [hheap] at hr
    split at hr
    · cases hr
    · exact hr
  · rw [hheap]
    split
    · rfl
    · exact h.fresh r hr
  · obtain ⟨l, hl, hnd, hmem⟩ := h.pages
    refine ⟨l ++ [n], ?_, ?_, fun n' => ?_⟩
    · exact (congrArg (· ++ [n]) hl).trans (List.append_assoc ..)
    · rw [List.nodup_append_comm]
      refine List.nodup_cons.mpr ⟨fun hmn => ?_, hnd⟩
      obtain ⟨g', q', hg', hp', hz⟩ := (hmem n).mp hmn
      have halive : (s0.heap q').isSome = true := by
        rw [hs.alive g' q' hg']
        rfl
      cases hown q' halive hp'
      cases hs.inj g' g q hg' hg
      omega
    · rw [List.mem_append, List.mem_singleton, hmem]
      constructor
      · rintro (⟨g', q', hg', hp', hz⟩ | rfl)
        · refine ⟨g', q', hg', hp', ?_⟩
          rw [Function.update_of_ne]
          · exact hz
          · rintro rfl
            omega
        · exact ⟨g, q, hg, hn, Function.update_self ..⟩
      · rintro ⟨g', q', hg', hp', hz⟩
        by_cases hgg : g' = g
        · subst hgg
          cases Option.some.inj (hg'.inode.symm.trans hg.inode)
          exact .inr (Option.some.inj (hp'.symm.trans hn))
        · rw [Function.update_of_ne hgg] at hz
          exact .inl ⟨g', q', hg', hp', hz⟩

/-! ## `sys_exit` -/

/-- `p` is exiting, and its descriptors below `k` are done. -/
def Midway (s0 : State) (p k : Nat) (s : State) : Prop :=
  ∃ d : Nat → Nat, Left s0 d s ∧ (∀ p' fd, p' ≠ p ∨ k ≤ fd → s.tables p' fd = s0.tables p' fd) ∧
    ∀ g, (s0.files g).fdFlag = pipeFlag → d g + endsFrom s0 p g 0 = refs s0 g + endsFrom s0 p g k

theorem u32Sub_one (h : m + 1 < 2 ^ 32) : Fs.u32Sub (m + 1) 1 = m := by
  unfold Fs.u32Sub
  omega

theorem endsFrom_anti {k' : Nat} (h : k ≤ k') : endsFrom s p g k' ≤ endsFrom s p g k := by
  induction h with
  | refl => exact Nat.le_refl _
  | @step j _ ih =>
    refine Nat.le_trans ?_ ih
    by_cases hj : j < maxFilesOpenPerProc
    · rw [endsFrom_succ hj]
      exact Nat.le_add_right ..
    · unfold endsFrom
      rw [Nat.sub_eq_zero_of_le (by omega : maxFilesOpenPerProc ≤ j + 1)]
      exact Nat.zero_le _

theorem wp_mfreePage {Q : Unit → State → Prop} {a : Option Nat} :
    wp Any (mfreePage a) Q s ↔ ∀ q, a = some q → ∀ n, s.page q = some n →
      Q () (s.dropPage n) := by
  simp [mfreePage, Any, State.dropPage]

/-- The last descriptor for a pipe has the number of its slot. -/
theorem last_end (hk : k < maxFilesOpenPerProc) (hg : s.tables p k = some g)
    (hrest : endsFrom s p g (k + 1) = 0) (hpos : 0 < endsFrom s p g g)
    (hlast : endsFrom s p g (g + 1) = 0) : k = g := by
  obtain ⟨fd, hle, hlt, hfd⟩ := endsFrom_pos.mp hpos
  have hkg : k ≤ g := by
    by_contra hgt
    have := endsFrom_pos.mpr ⟨k, (by omega : g + 1 ≤ k), hk, hg⟩
    omega
  by_contra hne
  have := endsFrom_pos.mpr ⟨fd, (by omega : k + 1 ≤ fd), hlt, hfd⟩
  omega

theorem Midway.releaseFd (hs : Counted s0) (hp : p ∈ s0.live) (hb : Balanced s0 (.exit p))
    (hk : k < maxFilesOpenPerProc) (h : Midway s0 p k s) :
    wp Any (releaseFd p k) (fun _ t => Midway s0 p (k + 1) t) s := by
  obtain ⟨d, hl, htab, hd⟩ := h
  have hentry : s.tables p k = s0.tables p k := htab p k (.inr (Nat.le_refl k))
  unfold Descr.releaseFd
  simp only [wp_bind, wp_get]
  cases hg : s.tables p k with
  | none =>
    rw [hentry] at hg
    refine ⟨d, hl, fun p' fd hc => htab p' fd (hc.imp_right Nat.le_of_succ_le), fun g hf => ?_⟩
    rw [hd g hf, endsFrom_succ hk, hg, if_neg (by simp), Nat.add_zero]
  | some g =>
    have hg0 : s0.tables p k = some g := hentry ▸ hg
    have hone : endsFrom s0 p g k = endsFrom s0 p g (k + 1) + 1 := by
      rw [endsFrom_succ hk, if_pos hg0]
    have hother : ∀ g', g' ≠ g → endsFrom s0 p g' k = endsFrom s0 p g' (k + 1) := by
      intro g' hgg
      rw [endsFrom_succ hk, hg0, if_neg, Nat.add_zero]
      rintro ⟨⟩
      exact hgg rfl
    have hle := endsFrom_le_refs (g := g) hp
    simp only [wp_bind, wp_check, wp_fileAt, wp_ite, implies_true, and_true]
    refine fun _ => ⟨fun hflag => ?_, fun hflag => ?_⟩
    · have hflag0 : (s0.files g).fdFlag = pipeFlag := hl.flags g ▸ hflag
      -- the slot is not vacant, for `p` has it
      obtain ⟨q, hq⟩ : ∃ q, (s0.files g).fdInode = some q := by
        by_contra hno
        have hz := hs.vacant g hflag0 (Option.eq_none_iff_forall_ne_some.mpr fun q hq => hno ⟨q, hq⟩)
        have := endsFrom_pos.mpr ⟨k, Nat.zero_le k, hk, hg0⟩
        omega
      have hpipe : IsPipe s0 g q := ⟨hflag0, hq⟩
      have hdg := hd g hflag0
      obtain ⟨m, hm⟩ : ∃ m, d g = m + 1 := Nat.exists_eq_succ_of_ne_zero (by omega)
      obtain ⟨hino, hpos, -⟩ := hl.used g q hpipe (by omega)
      have hlt : m + 1 < 2 ^ 32 := by
        have := refs_lt (g := g) hs.nodup hs.bound
        have := endsFrom_anti (s := s0) (p := p) (g := g) (Nat.zero_le k)
        omega
      rw [hpos, hm, u32Sub_one hlt]
      have hcount : ∀ g', (s0.files g').fdFlag = pipeFlag →
          Function.update d g m g' + endsFrom s0 p g' 0 = refs s0 g' + endsFrom s0 p g' (k + 1) := by
        intro g' hf
        by_cases hgg : g' = g
        · subst hgg
          rw [Function.update_self]
          omega
        · rw [Function.update_of_ne hgg, hd g' hf, hother g' hgg]
      simp only [wp_setFile]
      refine ⟨fun hz => ?_, fun hz => ?_⟩
      · subst hz
        have hlast := hb g q hpipe (by omega)
        have hkg : k = g := last_end hk hg0 (by omega) hlast.1 hlast.2
        subst hkg
        simp only [wp_mfreePage]
        intro q' hq' n hn
        have hfile : (s.setFile k { s.files k with fdPos := 0 }).files k =
            { s.files k with fdPos := 0 } := Function.update_self ..
        rw [hfile] at hq'
        cases Option.some.inj (hq'.symm.trans hino)
        have hn0 : s0.page q = some n := hl.page ▸ hn
        refine ⟨_, hl.release hs hpipe hm hn0, fun p' fd hc => ?_, hcount⟩
        exact htab p' fd (hc.imp_right Nat.le_of_succ_le)
      · refine ⟨_, hl.lower hpipe hm hz, fun p' fd hc => ?_, hcount⟩
        exact htab p' fd (hc.imp_right Nat.le_of_succ_le)
    · refine wp_mono (apart_sysClose fun g' _ hg' hf => ?_) ?_
      · rw [Int.toNat_natCast, hg] at hg'
        cases hg'
        exact absurd hf hflag
      rintro - t ⟨ha, ht⟩
      refine ⟨d, hl.apart ha, fun p' fd hc => ?_, fun g' hf => ?_⟩
      · rw [ht p' fd (hc.imp_right fun h => by rw [Int.toNat_natCast]; omega)]
        exact htab p' fd (hc.imp_right Nat.le_of_succ_le)
      · rw [hd g' hf, hother g']
        rintro rfl
        exact hflag ((hl.flags g').trans hf)

theorem Midway.releaseFds {left : Nat} (hs : Counted s0) (hp : p ∈ s0.live)
    (hb : Balanced s0 (.exit p)) (hk : k + left = maxFilesOpenPerProc) (h : Midway s0 p k s) :
    wp Any (releaseFds p left k) (fun _ t => Midway s0 p maxFilesOpenPerProc t) s := by
  induction left generalizing k s with
  | zero =>
    rw [Nat.add_zero] at hk
    exact hk ▸ h
  | succ left ih =>
    simp only [Descr.releaseFds, wp_bind]
    exact wp_mono (h.releaseFd hs hp hb (by omega)) fun _ t ht => ih (by omega) ht

theorem Counted.midway (h : Counted s) (p : Nat) : Midway s p 0 s :=
  ⟨refs s, h.left_refl fun _ => rfl, fun _ _ _ => rfl, fun _ _ => rfl⟩

/-- The references left are those of the others. -/
theorem Counted.left (hs : Counted s0) (hp : p ∈ s0.live)
    (h : Midway s0 p maxFilesOpenPerProc s) :
    Counted { s with live := s.live.erase p } ∧ PipeLaw s0 { s with live := s.live.erase p } := by
  obtain ⟨d, hl, htab, hd⟩ := h
  generalize ht : ({ s with live := s.live.erase p } : State) = t
  have hlive : t.live = s0.live.erase p := by rw [← ht, ← hl.live]
  have htab' : ∀ p', p' ≠ p → ∀ fd, t.tables p' fd = s0.tables p' fd := by
    intro p' hpp fd
    rw [← ht]
    exact htab p' fd (.inl hpp)
  have hfiles : t.files = s.files := by rw [← ht]
  have hheap : t.heap = s.heap := by rw [← ht]
  have hpage : t.page = s0.page := by rw [← hl.page, ← ht]
  have hsub : ∀ p' ∈ t.live, p' ≠ p ∧ p' ∈ s0.live := by
    rw [hlive]
    exact fun p' => hs.nodup.mem_erase_iff.mp
  have hrefs : ∀ g, refs s0 g = endsFrom s0 p g 0 + refs t g := by
    intro g
    rw [refs_split hp, refs, hlive]
    congr 2
    refine List.map_congr_left fun p' hp' => ?_
    refine (endsFrom_congr fun fd _ => ?_).symm
    rw [htab' p' (hs.nodup.mem_erase_iff.mp hp').1]
  have hdue : ∀ g, (s0.files g).fdFlag = pipeFlag → d g = refs t g := by
    intro g hg
    have hz : endsFrom s0 p g maxFilesOpenPerProc = 0 := rfl
    have h1 := hd g hg
    have h2 := hrefs g
    omega
  have hpipe : ∀ g q, IsPipe t g q → IsPipe s0 g q ∧ 0 < d g := by
    rintro g q ⟨hflag, hino⟩
    rw [hfiles] at hflag hino
    rw [hl.flags] at hflag
    cases hq : (s0.files g).fdInode with
    | none =>
      rw [hl.vacant g hflag hq] at hino
      cases hino
    | some q' =>
      have hg : IsPipe s0 g q' := ⟨hflag, hq⟩
      have hpos : 0 < d g := by
        by_contra hz
        rw [(hl.done g q' hg (by omega)).1] at hino
        cases hino
      rw [(hl.used g q' hg hpos).1] at hino
      cases hino
      exact ⟨hg, hpos⟩
  refine ⟨⟨hlive ▸ hs.nodup.erase p, fun p' hp' => hs.bound p' (hsub p' hp').2,
    fun p' hp' fd hfd => ?_, fun q hq => ?_, fun g q hg => hs.low g q (hpipe g q hg).1,
    fun g g' q hg hg' => hs.inj g g' q (hpipe g q hg).1 (hpipe g' q hg').1, fun g q hg => ?_,
    fun g q hg p' hp' => ?_, fun g q hg => ?_, fun g q hg => ?_, fun g hg hv => ?_⟩,
    ⟨fun g q hg => ?_, ?_⟩⟩
  · obtain ⟨hne, hp'⟩ := hsub p' hp'
    rw [htab' p' hne]
    exact hs.std p' hp' fd hfd
  · rw [hheap]
    refine hl.fresh q ?_
    rwa [← ht] at hq
  · obtain ⟨hg0, hpos⟩ := hpipe g q hg
    rw [hfiles, (hl.used g q hg0 hpos).2.1, hdue g hg0.flag]
    exact ⟨rfl, hdue g hg0.flag ▸ hpos⟩
  · obtain ⟨hne, hp'⟩ := hsub p' hp'
    have hsame : endsFrom t p' g 0 = endsFrom s0 p' g 0 :=
      endsFrom_congr fun fd _ => by rw [htab' p' hne fd]
    rw [hsame]
    exact hs.even g q (hpipe g q hg).1 p' hp'
  · obtain ⟨hg0, hpos⟩ := hpipe g q hg
    rw [hheap]
    exact (hl.used g q hg0 hpos).2.2
  · obtain ⟨n, hn, hown⟩ := hs.page g q (hpipe g q hg).1
    rw [hpage, hheap]
    exact ⟨n, hn, fun r hr => hown r (hl.gone r hr)⟩
  · rw [hfiles] at hg hv
    rw [hl.flags] at hg
    rw [← hdue g hg]
    cases hq : (s0.files g).fdInode with
    | none =>
      have h1 := hrefs g
      rw [hs.vacant g hg hq] at h1
      rw [hdue g hg]
      omega
    | some q =>
      by_contra hne
      rw [(hl.used g q ⟨hg, hq⟩ (Nat.pos_of_ne_zero hne)).1] at hv
      cases hv
  · rw [hheap, hfiles, ← hdue g hg.flag]
    by_cases hz : d g = 0
    · obtain ⟨h1, h2⟩ := hl.done g q hg hz
      exact ⟨iff_of_true h2 hz, iff_of_true h1 hz⟩
    · obtain ⟨h1, -, h3⟩ := hl.used g q hg (Nat.pos_of_ne_zero hz)
      rw [h1, h3]
      exact ⟨iff_of_false nofun hz, iff_of_false nofun hz⟩
  · obtain ⟨l, hfreed, hnd, hmem⟩ := hl.pages
    refine ⟨l, by rw [← ht, ← hfreed], hnd, fun n => ?_⟩
    rw [hmem]
    refine exists_congr fun g => exists_congr fun q => and_congr_right fun hg => ?_
    rw [hdue g hg.flag]

/-! ## Every run -/

/-- A pipe that is closed has an even count and stays. -/
theorem Counted.close_apart {fd : Int} (h : Counted s) (hp : p ∈ s.live) :
    wp Any (sysClose p fd) (fun _ t => Apart s t) s := by
  by_cases hlt : fd.toNat < maxFilesOpenPerProc
  · refine wp_mono (apart_sysClose fun g _ hg hflag => ?_) fun _ _ ht => ht.1
    have hpos : 0 < refs s g := refs_pos.mpr ⟨p, hp, endsFrom_pos.mpr ⟨_, Nat.zero_le _, hlt, hg⟩⟩
    cases hq : (s.files g).fdInode with
    | none => exact absurd (h.vacant g hflag hq) hpos.ne'
    | some q =>
      have hpipe : IsPipe s g q := ⟨hflag, hq⟩
      have hlt := h.lt hpipe
      have heven := h.even_refs hpipe
      rw [← (h.count g q hpipe).1] at heven
      unfold Fs.u32Sub
      omega
  · simp only [sysClose, fdLocal2Global, wp_ite, wp_bind, wp_get, wp_check, wp_pure, Any,
      implies_true, and_true]
    exact ⟨fun _ => .refl s, fun _ h => absurd h hlt⟩

theorem Counted.step {e : PipeCall} (h : Counted s) (hb : Balanced s e) (hst : e.Step s t) :
    Counted t ∧ PipeLaw s t := by
  obtain ⟨hen, hrun⟩ := hst
  cases e with
  | pipe p room =>
    obtain ⟨hp, hroom⟩ := hen
    obtain ⟨r, u, hr, hu⟩ := bind_eq_ok.mp hrun
    cases hu
    rcases wp_ok (wp_sysPipe fun hr g hg => (hb hr g hg).2) hr with
      hts | ⟨hr, g, fd, fd', hg, h3, hlt, h3', hlt', hne, hfd, hfd', hts⟩
    · rw [hts]
      exact ⟨h, h.apart_law (.refl s)⟩
    · obtain ⟨n, hn, hown⟩ := hroom hr
      rw [hts]
      exact h.piped hp hg (hb hr g hg).1 h3 hlt h3' hlt' hne hfd hfd' hn hown
  | fork p c =>
    have hf := wp_ok (h.forked hen.1 hen.2.1 hen.2.2) hrun
    exact hf
  | close p fd =>
    obtain ⟨r, u, hr, hu⟩ := bind_eq_ok.mp hrun
    cases hu
    have ha := wp_ok (h.close_apart hen) hr
    exact ⟨h.apart ha, h.apart_law ha⟩
  | lseek p fd offset w size =>
    obtain ⟨r, u, hr, hu⟩ := bind_eq_ok.mp hrun
    cases hu
    have ha := wp_ok (apart_sysLseek h hen.2) hr
    exact ⟨h.apart ha, h.apart_law ha⟩
  | exit p =>
    obtain ⟨_, u, hr, hu⟩ := bind_eq_ok.mp hrun
    cases hu
    have hmid := wp_ok ((h.midway p).releaseFds h hen hb (Nat.zero_add _)) hr
    exact h.left hen hmid

/-- The count of a pipe is the number of descriptors for it. -/
def CountsExact (s : State) : Prop := ∀ g q, IsPipe s g q → (s.files g).fdPos = refs s g

theorem pipes_counted {as : List PipeCall} (h0 : Pipeless s0)
    (hrun : Run (Guarded Balanced PipeCall.Step) s0 as s) :
    CountsExact s ∧ ∀ e t, Balanced s e → e.Step s t → CountsExact t ∧ PipeLaw s t := by
  have h : Counted s := hrun.guarded_invariant (fun _ _ _ hs hb hst => (hs.step hb hst).1) h0.counted
  refine ⟨fun g q hg => (h.count g q hg).1, fun e t hb hst => ?_⟩
  obtain ⟨ht, hlaw⟩ := h.step hb hst
  exact ⟨fun g q hg => (ht.count g q hg).1, hlaw⟩

/-- Process 1 has the standard descriptors, and the first `k` slots are those of files. -/
def State.shell (k : Nat) : State where
  heap q := if q < k then some (.inode ⟨q, .regular, 0, 1, false⟩) else none
  next := k
  page q := some q
  freed := []
  root := 0
  openInodes := List.range k
  files g := ⟨0, 0, if g < k then some g else none⟩
  tables _ fd := if fd < 3 then some fd else none
  live := [1]

theorem shell_pipeless (k : Nat) : Pipeless (.shell k) := by
  refine ⟨List.nodup_singleton 1, fun p hp => ?_, fun p _ fd hfd => if_pos hfd,
    fun q hq => if_neg ?_, fun _ => nofun⟩
  · rw [List.mem_singleton.mp hp]
    decide
  · exact Nat.not_lt.mpr hq

/-- The pipe is in slot 4 and has the descriptors 3 and 4. -/
theorem shell_pipe : Run (Guarded Balanced PipeCall.Step) (.shell 4) [.pipe 1 true]
    ((State.shell 4).piped 1 4 3 4) := by
  refine .single ⟨fun _ g hg => ?_, ⟨by decide, fun _ => ⟨4, rfl, fun q hq => ?_⟩⟩, rfl⟩
  · have hslot : freeSlot (.shell 4) = some 4 := by decide
    cases hslot.symm.trans hg
    decide
  · rintro ⟨⟩
    cases hq

/-- Process 1 makes a pipe and exits. -/
theorem pipes_counted_once : ∃ s t, Run (Guarded Balanced PipeCall.Step) (.shell 4) [.pipe 1 true] s ∧
    PipeCall.Step s (.exit 1) t ∧ CountsExact s ∧ CountsExact t ∧ PipeLaw s t := by
  have hstep : ∃ t, PipeCall.Step ((State.shell 4).piped 1 4 3 4) (.exit 1) t :=
    ⟨_, List.mem_singleton_self 1, rfl⟩
  obtain ⟨t, ht⟩ := hstep
  have hb : Balanced ((State.shell 4).piped 1 4 3 4) (.exit 1) := by
    intro g q hg _
    have hg4 : g = 4 := by
      by_contra hne
      have hflag := hg.flag
      rw [piped_file, if_neg hne] at hflag
      cases hflag
    subst hg4
    decide
  obtain ⟨h1, h2⟩ := pipes_counted (shell_pipeless 4) shell_pipe
  exact ⟨_, t, shell_pipe, ht, h1, h2 _ _ hb ht⟩

/-- The first pipe gets the slot of the standard input; and a pipe in slot 5 with the descriptors 3 and 4
takes the page of slot 4 with it, not its own. -/
theorem pipes_miscounted :
    (∃ s, Run PipeCall.Step (.shell 0) [.pipe 1 true] s ∧ ¬ CountsExact s) ∧
    ∃ s t, Run PipeCall.Step (.shell 5) [.pipe 1 true] s ∧ PipeCall.Step s (.exit 1) t ∧
      t.freed = [4] ∧ ¬ PipeLaw s t := by
  refine ⟨⟨(State.shell 0).piped 1 0 3 4, .single ⟨⟨by decide, fun _ => ⟨0, rfl, fun q hq => ?_⟩⟩, rfl⟩,
    fun h => ?_⟩, (State.shell 5).piped 1 5 3 4, ?_⟩
  · cases hq
  · exact absurd (h 0 0 ⟨rfl, rfl⟩) (by decide)
  · have hstep : ∃ t, PipeCall.Step ((State.shell 5).piped 1 5 3 4) (.exit 1) t ∧ t.freed = [4] ∧
        refs t 5 = 0 ∧ t.heap 5 = some .queue := ⟨_, ⟨List.mem_singleton_self 1, rfl⟩, rfl, rfl, rfl⟩
    obtain ⟨t, ht, hfreed, hz, hq⟩ := hstep
    refine ⟨t, .single ⟨⟨by decide, fun _ => ⟨5, rfl, fun q hq => ?_⟩⟩, rfl⟩, ht, hfreed, fun h => ?_⟩
    · rintro ⟨⟩
      cases hq
    · have hnone := (h.freed 5 5 ⟨rfl, rfl⟩).1.mpr hz
      rw [hq] at hnone
      cases hnone

end Frog.Descr
