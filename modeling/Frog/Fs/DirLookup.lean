import Frog.Lib.Scan
import Frog.Fs.DirPacked

/-!
# Looking up a name after adds and deletes

`search_file` ends at the first slot without a number and a type, in whatever sector it reads.
In a directory without holes that is the slot behind the last entry, provided that it lies in
an allocated zone.
-/

namespace Frog.Fs

set_option autoImplicit false
open Bytes Prog

variable {E : Stop → Prop} {s t : State} {p n : Nat} {x y : Inode} {e : DirEntry} {name : Name}

/-- The number of a live entry of that name, or `none` if there is no such entry. -/
def LookupOf (disk : Store) (x : Inode) (name : Name) (r : Option Nat) : Prop :=
  (∃ k i e, liveAt disk x k i = some e ∧ strEq e.filename name = true ∧ r = orMinusOne e.iNo) ∨
    ((∀ k i e, liveAt disk x k i = some e → strEq e.filename name = false) ∧ r = none)

/-- A zone or the indirect table of the directory. -/
def DirSector (disk : Store) (x : Inode) (lba : Nat) : Prop :=
  lba ≠ 0 ∧ ((∃ k, zoneOf disk x k = lba) ∨ x.iZones 12 = lba)

/-- A C string other than `.` and `..`. -/
structure OrdinaryName (name : Name) : Prop where
  cString : (0 : Byte) ∉ name
  not_dot : name ≠ dot
  not_dotDot : name ≠ dotDot

/-- Every name is looked up rightly, whatever the sectors outside the directory hold. -/
def LooksUp (d p : Nat) (s : State) : Prop :=
  ∃ x, s.inodes p = some x ∧ ∀ name, OrdinaryName name → ∀ disk,
    (∀ lba, DirSector s.disk x lba → sectorAt disk lba = sectorAt s.disk lba) →
      ∃ r t, searchFile d name (s.setDisk disk) = .ok (r, t) ∧ LookupOf s.disk x name r

/-! ## One slot -/

theorem strEq_unique : ∀ {a b : Name} {s : Store}, strEq s a = true → strEq s b = true →
    (0 : Byte) ∉ a → (0 : Byte) ∉ b → a = b := by
  intro a
  induction a with
  | nil =>
    intro b s ha hb _ h0
    cases b with
    | nil => rfl
    | cons c cs =>
      simp only [strEq, beq_iff_eq, Bool.and_eq_true] at ha hb
      exact absurd (by rw [← hb.1, ha]; exact List.mem_cons_self) h0
  | cons c cs ih =>
    intro b s ha hb h0 h0'
    cases b with
    | nil =>
      simp only [strEq, beq_iff_eq, Bool.and_eq_true] at ha hb
      exact absurd (by rw [← ha.1, hb]; exact List.mem_cons_self) h0
    | cons c' cs' =>
      simp only [strEq, beq_iff_eq, Bool.and_eq_true] at ha hb
      rw [← ha.1, ← hb.1,
        ih ha.2 hb.2 (fun h => h0 (List.mem_cons_of_mem _ h)) fun h => h0' (List.mem_cons_of_mem _ h)]

/-- What `search_file` does not take for the end of the directory. -/
def Numbered (e : DirEntry) : Prop := ¬ (e.iNo = 0 ∧ e.fType = 0)

theorem not_dots (hn : OrdinaryName name) (h : strEq e.filename name = true) :
    (strEq e.filename dot || strEq e.filename dotDot) = false := by
  rw [Bool.or_eq_false_iff]
  constructor
  · by_contra hd
    exact hn.not_dot (strEq_unique h (by simpa using hd) hn.cString (by decide))
  · by_contra hd
    exact hn.not_dotDot (strEq_unique h (by simpa using hd) hn.cString (by decide))

theorem searchEntry_none (hn : OrdinaryName name) (h : searchEntry name e = none) :
    strEq e.filename name = false := by
  by_contra hm
  rw [Bool.not_eq_false] at hm
  simp only [searchEntry, not_dots hn hm, Bool.false_eq_true, if_false, hm, if_true] at h
  split at h <;> cases h

theorem searchEntry_some {r : Option Nat} (h : searchEntry name e = some r) :
    (¬ Numbered e ∧ r = none) ∨
      (Numbered e ∧ strEq e.filename name = true ∧ r = orMinusOne e.iNo) := by
  unfold searchEntry at h
  split_ifs at h with h1 h2 h3
  · cases h
    exact .inl ⟨fun hnum => hnum h2, rfl⟩
  · cases h
    exact .inr ⟨h2, h3, rfl⟩

theorem searchEntry_blank (h : Blank e) : searchEntry name e = some none := by
  have hdots : (strEq e.filename dot || strEq e.filename dotDot) = false := by
    simp [strEq, dot, dotDot, h.name]
  rw [searchEntry, hdots, if_neg (by simp), if_pos ⟨h.no, h.type⟩]

/-- A blank first slot hides the whole directory. -/
theorem searchSector_blank {buf : Store} (h : Blank (entryAt buf 0)) :
    searchSector name buf = some none :=
  Scan.findSome_range_at (i := 0) (by decide) (searchEntry_blank h) fun j hj => by omega

/-! ## The scan of a directory without holes -/

/-- From zone `i` on, with no match before it. -/
theorem wp_searchZones {left : Nat} (hle : ∀ k, k < 140 → zoneOf s.disk x k ≤ maxLba)
    (h : Packed Numbered s.disk x n) (hroom : n < dirSlots → zoneOf s.disk x (n / perSector) ≠ 0)
    (hname : OrdinaryName name) : ∀ {i : Nat}, i + left = 140 → perSector * i ≤ n →
      (∀ q, q < perSector * i → strEq (slotAt s.disk x q).filename name = false) →
        wp E (searchZones name (zoneOf s.disk x) left i)
          (fun r _ => LookupOf s.disk x name r) s := by
  -- a scan that ended behind all entries has seen each of them
  have hmissing : ∀ m, n ≤ m →
      (∀ q, q < m → q < n → strEq (slotAt s.disk x q).filename name = false) →
        LookupOf s.disk x name none := by
    intro m hm hno
    refine .inr ⟨fun k i e hlive => ?_, rfl⟩
    obtain ⟨hlt, -, rfl⟩ := h.of_live hlive
    exact hno _ (by omega) hlt
  induction left with
  | zero =>
    intro i hi _ hno
    have hn := h.le
    refine (wp_pure _).mpr (hmissing (perSector * i) ?_ fun q hq _ => hno q hq)
    unfold dirSlots at hn
    rwa [show i = 140 by omega, Nat.mul_comm]
  | succ left ih =>
    intro i hi hin hno
    have hslot : ∀ j, j < perSector → entryAt (sectors s.disk (zoneOf s.disk x i) 1) j =
        slotAt s.disk x (perSector * i + j) := fun j hj => (Packed.slot_pos hj).symm
    simp only [searchZones, wp_bind, wp_ideRead_one (hle i (by omega))]
    cases hs : searchSector name (sectors s.disk (zoneOf s.disk x i) 1) with
    | some r =>
      obtain ⟨j, hj, hentry, hbefore⟩ := Scan.findSome_range_some.mp hs
      rw [hslot j hj] at hentry
      refine (wp_pure _).mpr ?_
      rcases searchEntry_some hentry with ⟨hend, rfl⟩ | ⟨hnum, hmatch, rfl⟩
      · refine hmissing (perSector * i + j) ?_ fun q hq _ => ?_
        · by_contra hlt
          exact hend (h.good _ (by omega))
        · by_cases hqi : q < perSector * i
          · exact hno q hqi
          · have := hbefore (q - perSector * i) (by omega)
            rw [hslot _ (by omega), show perSector * i + (q - perSector * i) = q by omega] at this
            exact searchEntry_none hname this
      · have hlt : perSector * i + j < n := by
          by_contra hge
          have hq : perSector * i + j < dirSlots := by unfold dirSlots perSector at *; omega
          have hz : zoneOf s.disk x ((perSector * i + j) / perSector) ≠ 0 := by
            rw [show (perSector * i + j) / perSector = n / perSector by
              unfold perSector at *; omega]
            exact hroom (by omega)
          have hb := h.rest _ (by omega) hq hz
          exact hnum ⟨hb.no, hb.type⟩
        exact .inl ⟨_, _, _, h.liveAt_slot hlt, hmatch, rfl⟩
    | none =>
      have hnone := Scan.findSome_range_none.mp hs
      have hfull : perSector * (i + 1) ≤ n := by
        by_contra hlt
        have hq : n < dirSlots := by unfold dirSlots perSector at *; omega
        have := hnone (n - perSector * i) (by unfold perSector at *; omega)
        rw [hslot _ (by unfold perSector at *; omega),
          show perSector * i + (n - perSector * i) = n by omega,
          searchEntry_blank (h.rest n (Nat.le_refl n) hq (hroom hq))] at this
        cases this
      refine ih (by omega) hfull fun q hq => ?_
      by_cases hqi : q < perSector * i
      · exact hno q hqi
      · have := hnone (q - perSector * i) (by unfold perSector at *; omega)
        rw [hslot _ (by unfold perSector at *; omega),
          show perSector * i + (q - perSector * i) = q by omega] at this
        exact searchEntry_none hname this

/-! ## The call -/

theorem wp_searchFile {Q : Option Nat → State → Prop} {d : Nat} {dir : Dir} (hd : DirOk s p x)
    (hdir : s.dirs d = some dir) (hp : dir.inode = some p) (h0 : s.env.malloc 0 = true)
    (h1 : s.env.malloc 1 = true)
    (hQ : ∀ t, t.disk = s.disk → wp E (searchZones name (zoneOf s.disk x) 140 0) Q t) :
    wp E (searchFile d name) Q s := by
  have hz : dirZones x (tableOf s.disk x) = zoneOf s.disk x := rfl
  simp only [searchFile, dirInode, dirAt, mustMalloc, wp_bind, wp_get, wp_need, hdir, hp,
    Option.some.injEq, forall_eq', reduceCtorEq, false_implies, and_true, wp_inodeAt, hd.inode, wp_ite,
    wp_pure, wp_sysMalloc (show 0 < 512 by norm_num), wp_check, h0, true_implies, not_true_eq_false,
    wp_ideRead_one hd.table_le]
  constructor
  · intro hno
    rw [show (fun _ => 0 : Store) = tableOf s.disk x by rw [tableOf, if_pos hno], hz]
    exact hQ _ rfl
  · intro hyes
    refine ⟨fun _ => ?_, fun h => absurd h1 h⟩
    rw [show sectors s.disk (x.iZones 12) 1 = tableOf s.disk x by rw [tableOf, if_neg hyes], hz]
    exact hQ _ rfl

/-- A directory without holes that ends inside an allocated zone is looked up rightly. -/
theorem looksUp_packed {d : Nat} (h : PackedAt Numbered s d p x n)
    (hroom : n < dirSlots → zoneOf s.disk x (n / perSector) ≠ 0) (h0 : s.env.malloc 0 = true)
    (h1 : s.env.malloc 1 = true) : LooksUp d p s := by
  refine ⟨x, h.ok.inode, fun name hname disk hsame => ?_⟩
  obtain ⟨dir, hdir, hp⟩ := h.dir
  have hkept : DirKept s (s.setDisk disk) p x x :=
    ⟨h.ok.inode, rfl, rfl, rfl, rfl, rfl, rfl, rfl, fun hz => hsame _ ⟨hz, .inr rfl⟩⟩
  have hd := hkept.dirOk h.ok
  have hsector : ∀ k, zoneOf s.disk x k ≠ 0 →
      sectorAt disk (zoneOf s.disk x k) = sectorAt s.disk (zoneOf s.disk x k) :=
    fun k hz => hsame _ ⟨hz, .inl ⟨k, rfl⟩⟩
  have hpacked : Packed Numbered disk x n := h.packed.congr hkept.zone hsector
  have hlive : ∀ k i, liveAt disk x k i = liveAt s.disk x k i := by
    intro k i
    by_cases hz : zoneOf s.disk x k = 0
    · rw [liveAt_unallocated hz, liveAt_unallocated (by rw [← hz]; exact hkept.zone k)]
    · exact liveAt_congr (hkept.zone k) (dirSlot_congr i (hkept.zone k) (hsector k hz))
  have hspec : wp (fun _ => False) (searchFile d name) (fun r _ => LookupOf disk x name r)
      (s.setDisk disk) := by
    refine wp_searchFile hd hdir hp h0 h1 fun t ht => ?_
    change t.disk = disk at ht
    subst ht
    exact wp_searchZones (s := t) (fun k hk => hd.zone_le hk) hpacked
      (fun hn => by rw [show zoneOf t.disk x _ = _ from hkept.zone _]; exact hroom hn) hname
      (show 0 + 140 = 140 from rfl) (Nat.zero_le n) fun q hq => by omega
  obtain ⟨r, t, hrun, hr⟩ := ok_of_wp hspec
  refine ⟨r, t, hrun, ?_⟩
  simpa only [LookupOf, hlive] using hr

/-! ## Every run -/

/-- After the entry is added to the first free slot there is another one behind it, or no zone is
left to read. -/
def AddKeepsEnd (disk : Store) (x : Inode) : Prop :=
  ∃ q, FreeAt disk x q ∧
    ((∀ k, k < 140 → zoneOf disk x k ≠ 0) ∨ ∃ q', q < q' ∧ FreeAt disk x q')

/-- The steps that a lookup survives. -/
def KeepsLookup (p : Nat) (s : State) : DirOp → Prop
  | .add e => EntryOk e ∧ isFree e = false ∧ Numbered e ∧
      ∀ x, s.inodes p = some x → AddKeepsEnd s.disk x
  | .delete inodeNr => ∀ x, s.inodes p = some x →
      NoDotsSector s.disk x ∧ ClearsLast s.disk x inodeNr

/-- No holes, an end that lies in an allocated zone, and memory for the buffers of a search. -/
def LookupInv (d p : Nat) (s : State) : Prop :=
  ∃ x n, PackedAt Numbered s d p x n ∧ (n < dirSlots → zoneOf s.disk x (n / perSector) ≠ 0) ∧
    s.env.malloc 0 = true ∧ s.env.malloc 1 = true

theorem lookupInv_step {d : Nat} {op : DirOp} (hs : LookupInv d p s) (hok : KeepsLookup p s op)
    (hstep : DirStep d s op t) : LookupInv d p t := by
  obtain ⟨x, n, h, hroom, h0, h1⟩ := hs
  cases op with
  | add e =>
    obtain ⟨he, hlive, hnum, hend⟩ := hok
    obtain ⟨q, hq, hnext⟩ := hend x h.ok.inode
    obtain ⟨y, hkept, ht⟩ := h.add hq he hlive hnum hstep
    refine ⟨y, n + 1, ht, fun hn => ?_, by rw [hkept.env, h0], by rw [hkept.env, h1]⟩
    rw [hkept.zone]
    rcases hnext with hall | ⟨q', hlt, hq'⟩
    · exact hall _ (by unfold dirSlots perSector at *; omega)
    · have := (h.next_slot hq).1
      exact hq'.zone _ (Nat.div_le_div_right (by omega))
  | delete inodeNr =>
    obtain ⟨hlinks, hclears⟩ := hok x h.ok.inode
    obtain ⟨y, n', hkept, hle, ht⟩ := h.delete hlinks hclears hstep
    refine ⟨y, n', ht, fun hn => ?_, by rw [hkept.env, h0], by rw [hkept.env, h1]⟩
    rw [hkept.zone]
    by_cases heq : n' = n
    · rw [heq]
      exact hroom (by omega)
    · exact h.packed.zone n' (by omega)

/-- Lookups are right after every run of such steps. -/
theorem searchFile_after_run {d : Nat} {ops : List DirOp} (hs : LookupInv d p s)
    (hrun : Run (Guarded (KeepsLookup p) (DirStep d)) s ops t) : LooksUp d p t := by
  obtain ⟨x, n, h, hroom, h0, h1⟩ :=
    hrun.guarded_invariant (I := LookupInv d p) (fun _ _ _ => lookupInv_step) hs
  exact looksUp_packed h hroom h0 h1

/-! ## Two entries in one zone -/

theorem twoEntries_numbered : PackedAt Numbered (oneZone twoEntries) 2 1 zoneDir 2 := by
  refine oneZone_packed (by decide) (fun q hq => ?_) fun q h1 h2 => ?_
  · revert q
    unfold Numbered
    decide +kernel
  · exact twoEntries_blank h2 h1

/-- Inode 7 is deleted from slot 0. The name in slot 1 is not found any more. -/
theorem search_behind_hole :
    ∃ t, Run (DirStep 2) (oneZone twoEntries) [.delete 7] t ∧ ¬ LooksUp 2 1 t := by
  obtain ⟨t, y, hstep, hkept, hhole⟩ := twoEntries_hole
  refine ⟨t, .single hstep, ?_⟩
  rintro ⟨y', hy, hlook⟩
  rw [hkept.inode] at hy
  cases hy
  obtain ⟨r, u, hrun, hr⟩ := hlook [98#8] ⟨by decide, by decide, by decide⟩ t.disk fun _ _ => rfl
  have hd := hkept.dirOk (oneZone_ok twoEntries)
  -- the search ends at the blank slot 0
  have hnone : wp (fun _ => False) (searchFile 2 [98#8]) (fun r _ => r = none) t := by
    refine wp_searchFile hd (by rw [hkept.dirs]; rfl) rfl (by rw [hkept.env]; rfl)
      (by rw [hkept.env]; rfl) fun u hu => ?_
    have hblank : Blank (entryAt (sectors u.disk (zoneOf t.disk y 0) 1) 0) := by
      rw [hu]
      exact hhole.blank
    rw [show (140 : Nat) = 139 + 1 from rfl, searchZones]
    simp only [wp_bind, wp_ideRead_one (hd.zone_le (show 0 < 140 by decide)),
      searchSector_blank hblank, wp_pure]
  have hrun : searchFile 2 [98#8] t = .ok (r, u) := hrun
  have hr0 := wp_ok hnone hrun
  subst hr0
  rcases hr with ⟨k, i, e, hlive, -, hno⟩ | ⟨hno, -⟩
  · obtain ⟨q, hq, heq⟩ := hhole.only hlive
    have hsmall : ∀ q, q < perSector → (entryAt twoEntries q).iNo ≠ 2 ^ 32 - 1 := by
      decide +kernel
    rw [heq, orMinusOne, if_neg (hsmall q hq)] at hno
    cases hno
  · exact absurd (hno 0 1 _ hhole.live) (by decide +kernel)

theorem twoEntries_lookup : LookupInv 2 1 (oneZone twoEntries) :=
  ⟨zoneDir, 2, twoEntries_numbered, fun _ => by rw [zoneOf_zoneDir]; decide, rfl, rfl⟩

/-- A third entry is added, and every name is still found. -/
theorem searchFile_after_run_add :
    ∃ t, Run (Guarded (KeepsLookup 1) (DirStep 2)) (oneZone twoEntries)
      [.add (entryOf [122#8] 40 .regular)] t ∧ LooksUp 2 1 t := by
  obtain ⟨t, hstep⟩ := twoEntries_add
  have hok : KeepsLookup 1 (oneZone twoEntries) (.add (entryOf [122#8] 40 .regular)) := by
    refine ⟨entryOf_ok (by decide) (by decide), by decide, by unfold Numbered; decide, fun x hx => ?_⟩
    cases hx
    exact ⟨2, twoEntries_free (by decide) (by decide), .inr ⟨3, by decide,
      twoEntries_free (by decide) (by decide)⟩⟩
  have hrun := @Run.single _ _ (Guarded (KeepsLookup 1) (DirStep 2)) _ _ _ ⟨hok, hstep⟩
  exact ⟨t, hrun, searchFile_after_run twoEntries_lookup hrun⟩

end Frog.Fs
