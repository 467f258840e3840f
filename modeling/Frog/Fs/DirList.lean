import Frog.Fs.DirPacked

/-!
# Reading a directory through

`read_dir` looks at one slot of one zone and, when it is blank, at the same slot of the zones
behind it. In a directory without holes these are blank, too, so the cursor counts through the
entries and comes to rest behind the last one.
-/

namespace Frog.Fs

set_option autoImplicit false
open Bytes Prog

variable {E : Stop → Prop} {s t : State} {p d n : Nat} {x y : Inode}

/-- `k` calls of `sys_readdir`. -/
def readAll (d : Nat) : Nat → M (List (Option DirEntry))
  | 0 => pure []
  | k + 1 => do
    let e ← sysReaddir (some d)
    let es ← readAll d k
    pure (e :: es)

def rewindAndReadAll (d k : Nat) : M (List (Option DirEntry)) := do
  sysRewinddir d
  readAll d k

/-- From the start, each live entry comes once, and then a null pointer. -/
def Lists (d p : Nat) (s : State) : Prop :=
  ∃ x, s.inodes p = some x ∧ ∃ slots : List (Nat × Nat), slots.Nodup ∧
    (∀ k i, (k, i) ∈ slots ↔ liveAt s.disk x k i ≠ none) ∧
    ∃ t, rewindAndReadAll d (slots.length + 1) s =
      .ok ((slots.map fun q => liveAt s.disk x q.1 q.2) ++ [none], t)

/-- What `read_dir` does not take for a blank. -/
def NotBlank (e : DirEntry) : Prop := isBlank e = false

theorem Blank.isBlank {e : DirEntry} (h : Blank e) : Fs.isBlank e = true := by
  simp [Fs.isBlank, h.name, h.no]

/-! ## One call -/

/-- The stream `d` stands at entry `j` of the directory that `s₀` holds. -/
structure ReadingAt (s₀ s : State) (d p : Nat) (x : Inode) (j : Nat) : Prop where
  disk : s.disk = s₀.disk
  inode : s.inodes p = some x
  dir : ∃ dir, s.dirs d = some dir ∧ dir.inode = some p ∧ dir.dirPos = 24 * j
  malloc : ∀ k, s.env.malloc k = true

/-- The call up to its loop. -/
theorem wp_readDir {s₀ : State} {Q : Option DirEntry → State → Prop} {j : Nat} (hd : DirOk s₀ p x)
    (h : ReadingAt s₀ s d p x j) :
    wp E (readDir d) Q s ↔ wp E (readDirZones d (scanZone s₀.disk x) (j % perSector)
      (140 - j / perSector) (j / perSector)) Q s.nextMalloc := by
  obtain ⟨dir, hdir, hp, hpos⟩ := h.dir
  have hscan : zoneArray (directPrefix x) (tableOf s.disk x) = scanZone s₀.disk x := by
    rw [h.disk]
    rfl
  simp only [readDir, dirInode, dirAt, inodeAllZones, wp_bind, wp_sysMalloc (show 0 < 512 by norm_num),
    h.malloc, if_true, wp_get, wp_need, hdir, hp, Option.some.injEq, forall_eq', reduceCtorEq,
    false_implies, and_true, wp_inodeAt, h.inode, wp_readTable hd.table_le, wp_pure, hscan, hpos,
    Nat.mul_div_cancel_left j (show 0 < 24 by norm_num)]

theorem wp_readDir_live {s₀ : State} {j : Nat} (hd : DirOk s₀ p x)
    (hpk : Packed NotBlank s₀.disk x n) (hj : j < n) (h : ReadingAt s₀ s d p x j) :
    wp E (readDir d) (fun r t => r = some (slotAt s₀.disk x j) ∧ ReadingAt s₀ t d p x (j + 1)) s := by
  obtain ⟨dir, hdir, hp, hpos⟩ := h.dir
  have hn := hpk.le
  have hk : j / perSector < 140 := by unfold dirSlots perSector at *; omega
  have hvis := hpk.visible hj (Nat.le_refl _)
  have hslot : entryAt (sectors s.disk (scanZone s₀.disk x (j / perSector)) 1) (j % perSector) =
      slotAt s₀.disk x j := by
    rw [h.disk, scanZone_ne hvis]
    rfl
  have hpos' : u32 (dir.dirPos + 24) = 24 * (j + 1) := by
    rw [hpos]
    exact u32_of_lt (by unfold dirSlots perSector at *; omega)
  have hnot : isBlank (slotAt s₀.disk x j) = false := hpk.good j hj
  rw [wp_readDir hd h, show 140 - j / perSector = 139 - j / perSector + 1 by omega, readDirZones,
    if_neg hvis]
  simp only [wp_bind, wp_ideRead_one (hd.scan_le hk), hslot, hnot, Bool.false_eq_true, if_false,
    dirAt, wp_get, wp_need, hdir, Option.some.injEq, forall_eq', reduceCtorEq, false_implies, and_true,
    setDir, wp_modify, wp_pure, true_and, hpos']
  exact ⟨h.disk, h.inode, ⟨_, Function.update_self .., hp, rfl⟩, fun k => h.malloc (k + 1)⟩

/-- Behind the last entry the loop finds nothing in any zone. -/
theorem wp_readDirZones_end {s₀ : State} {Q : Option DirEntry → State → Prop} {left : Nat}
    (hd : DirOk s₀ p x) (hpk : Packed NotBlank s₀.disk x n) (hdisk : s.disk = s₀.disk) :
    ∀ {i : Nat}, i + left = 140 → n / perSector ≤ i →
      (wp E (readDirZones d (scanZone s₀.disk x) (n % perSector) left i) Q s ↔ Q none s) := by
  induction left with
  | zero =>
    intro i _ _
    rfl
  | succ left ih =>
    intro i hi hle
    rw [readDirZones]
    by_cases hz : scanZone s₀.disk x i = 0
    · rw [if_pos hz, wp_pure]
    have hmod : n % perSector < perSector := Nat.mod_lt _ (by norm_num)
    have hblank : isBlank (entryAt (sectors s.disk (scanZone s₀.disk x i) 1) (n % perSector)) = true := by
      rw [hdisk, scanZone_ne hz]
      have hdiv : (perSector * i + n % perSector) / perSector = i := by unfold perSector at *; omega
      have := hpk.rest (perSector * i + n % perSector) (by unfold perSector at *; omega)
        (by unfold dirSlots perSector at *; omega) (by rwa [hdiv, ← scanZone_ne hz])
      rw [Packed.slot_pos hmod] at this
      exact this.isBlank
    rw [if_neg hz]
    simp only [wp_bind, wp_ideRead_one (hd.scan_le (show i < 140 by omega)), hblank, if_true]
    exact ih (by omega) (by omega)

theorem wp_readDir_end {s₀ : State} (hd : DirOk s₀ p x) (hpk : Packed NotBlank s₀.disk x n)
    (h : ReadingAt s₀ s d p x n) : wp E (readDir d) (fun r _ => r = none) s := by
  have hn := hpk.le
  have hle : n / perSector + (140 - n / perSector) = 140 := by
    unfold dirSlots perSector at *
    omega
  have hnext : s.nextMalloc.disk = s₀.disk := h.disk
  rw [wp_readDir hd h, wp_readDirZones_end hd hpk hnext hle (Nat.le_refl _)]

/-! ## All calls -/

theorem wp_readAll {s₀ : State} (hd : DirOk s₀ p x) (hpk : Packed NotBlank s₀.disk x n) {k : Nat} :
    ∀ {s : State} {j : Nat}, j + k = n → ReadingAt s₀ s d p x j →
      wp E (readAll d (k + 1)) (fun es _ => es =
        ((List.range' j k).map fun q => some (slotAt s₀.disk x q)) ++ [none]) s := by
  induction k with
  | zero =>
    intro s j hj h
    obtain rfl : j = n := by omega
    rw [readAll]
    simp only [sysReaddir, wp_bind, wp_need, Option.some.injEq, forall_eq', reduceCtorEq, false_implies,
      and_true]
    refine wp_mono (wp_readDir_end hd hpk h) ?_
    rintro r t rfl
    simp only [readAll, wp_pure, List.range'_zero, List.map_nil, List.nil_append]
  | succ k ih =>
    intro s j hj h
    rw [readAll]
    simp only [sysReaddir, wp_bind, wp_need, Option.some.injEq, forall_eq', reduceCtorEq, false_implies,
      and_true]
    refine wp_mono (wp_readDir_live hd hpk (by omega) h) ?_
    rintro r t ⟨rfl, ht⟩
    refine wp_mono (ih (by omega) ht) ?_
    rintro es u rfl
    rw [wp_pure, List.range'_succ, List.map_cons, List.cons_append]

/-- A directory without holes is read through. -/
theorem lists_packed (h : PackedAt NotBlank s d p x n) (hmem : ∀ k, s.env.malloc k = true) :
    Lists d p s := by
  obtain ⟨dir, hdir, hp⟩ := h.dir
  have hn := h.packed.le
  refine ⟨x, h.ok.inode, (List.range n).map fun q => (q / perSector, q % perSector), ?_, ?_, ?_⟩
  · refine List.Nodup.map (fun q q' heq => ?_) List.nodup_range
    rw [Prod.mk.injEq] at heq
    rw [← Nat.div_add_mod q perSector, heq.1, heq.2, Nat.div_add_mod]
  · intro k i
    rw [List.mem_map]
    constructor
    · rintro ⟨q, hq, heq⟩
      rw [Prod.mk.injEq] at heq
      rw [← heq.1, ← heq.2, h.packed.liveAt_slot (List.mem_range.mp hq)]
      simp
    · intro hlive
      obtain ⟨e, he⟩ := Option.ne_none_iff_exists'.mp hlive
      obtain ⟨hlt, hi, -⟩ := h.packed.of_live he
      refine ⟨perSector * k + i, List.mem_range.mpr hlt, ?_⟩
      rw [Nat.mul_add_div (by norm_num), Nat.div_eq_of_lt hi, Nat.add_zero, Nat.mul_add_mod,
        Nat.mod_eq_of_lt hi]
  · have hspec : wp (fun _ => False) (rewindAndReadAll d (n + 1)) (fun es _ => es =
        ((List.range' 0 n).map fun q => some (slotAt s.disk x q)) ++ [none]) s := by
      simp only [rewindAndReadAll, sysRewinddir, dirAt, setDir, wp_bind, wp_get, wp_need, hdir,
        Option.some.injEq, forall_eq', reduceCtorEq, false_implies, and_true, wp_modify]
      exact wp_readAll h.ok h.packed (Nat.zero_add n)
        ⟨rfl, h.ok.inode, ⟨_, Function.update_self .., hp, rfl⟩, hmem⟩
    obtain ⟨es, t, hrun, rfl⟩ := ok_of_wp hspec
    refine ⟨t, ?_⟩
    rw [List.length_map, List.length_range, hrun, List.map_map, List.range_eq_range']
    have hmap : (List.range' 0 n).map (fun q => some (slotAt s.disk x q)) =
        (List.range' 0 n).map ((fun q => liveAt s.disk x q.1 q.2) ∘
          fun q => (q / perSector, q % perSector)) := by
      refine List.map_congr_left fun q hq => ?_
      exact (h.packed.liveAt_slot (by simpa using hq)).symm
    rw [hmap]

/-! ## Every run -/

/-- The steps after which a directory is still read through. -/
def KeepsListing (p : Nat) (s : State) : DirOp → Prop
  | .add e => EntryOk e ∧ isFree e = false ∧ NotBlank e ∧
      ∀ x, s.inodes p = some x → ∃ q, FreeAt s.disk x q
  | .delete inodeNr => ∀ x, s.inodes p = some x →
      NoDotsSector s.disk x ∧ ClearsLast s.disk x inodeNr

/-- No holes, and memory for the buffers. -/
def ListingInv (d p : Nat) (s : State) : Prop :=
  (∃ x n, PackedAt NotBlank s d p x n) ∧ ∀ k, s.env.malloc k = true

theorem listingInv_step {op : DirOp} (hs : ListingInv d p s) (hok : KeepsListing p s op)
    (hstep : DirStep d s op t) : ListingInv d p t := by
  obtain ⟨⟨x, n, h⟩, hmem⟩ := hs
  cases op with
  | add e =>
    obtain ⟨he, hlive, hnot, hfree⟩ := hok
    obtain ⟨q, hq⟩ := hfree x h.ok.inode
    obtain ⟨y, hkept, ht⟩ := h.add hq he hlive hnot hstep
    exact ⟨⟨y, n + 1, ht⟩, fun k => by rw [hkept.env, hmem]⟩
  | delete inodeNr =>
    obtain ⟨hlinks, hclears⟩ := hok x h.ok.inode
    obtain ⟨y, n', hkept, -, ht⟩ := h.delete hlinks hclears hstep
    exact ⟨⟨y, n', ht⟩, fun k => by rw [hkept.env, hmem]⟩

/-- The directory is read through after every run of such steps. -/
theorem readdir_after_run {ops : List DirOp} (hs : ListingInv d p s)
    (hrun : Run (Guarded (KeepsListing p) (DirStep d)) s ops t) : Lists d p t := by
  obtain ⟨⟨x, n, h⟩, hmem⟩ :=
    hrun.guarded_invariant (I := ListingInv d p) (fun _ _ _ => listingInv_step) hs
  exact lists_packed h hmem

/-! ## Two entries in one zone -/

/-- With slot 0 blank and no second zone the stream is at its end at once. -/
theorem wp_readDir_hole (hd : DirOk t 1 y) (hzone : ∀ k, zoneOf t.disk y k = if k = 0 then 900 else 0)
    (hblank : Blank (dirSlot t.disk y 0 0)) (h : ReadingAt t s 2 1 y 0) :
    wp E (readDir 2) (fun r _ => r = none) s := by
  have hscan : scanZone t.disk y 0 = 900 := by
    have h0 : zoneOf t.disk y 0 = 900 := hzone 0
    unfold scanZone
    rw [zoneArray_directPrefix, h0]
    rintro j hj -
    obtain rfl : j = 0 := by omega
    rw [← @zoneOf_direct t.disk _ _ (by decide), hzone]
    decide
  have hnext : scanZone t.disk y 1 = 0 := by
    rcases scanZone_cases t.disk y 1 with h1 | ⟨-, h1⟩
    · rw [h1, hzone]
      rfl
    · exact h1
  have hslot : isBlank (entryAt (sectors s.disk 900 1) 0) = true := by
    have := hblank.isBlank
    rwa [dirSlot, hzone, if_pos rfl, ← h.disk] at this
  rw [wp_readDir hd h, show 140 - 0 / perSector = 138 + 1 + 1 from rfl, Nat.zero_div, Nat.zero_mod,
    readDirZones, hscan, if_neg (by decide)]
  simp only [wp_bind, wp_ideRead_one (show 900 ≤ maxLba by decide), hslot, if_true]
  rw [readDirZones, hnext, if_pos rfl, wp_pure]

/-- Inode 7 is deleted from slot 0. The entry in slot 1 is not listed any more. -/
theorem readdir_behind_hole :
    ∃ t, Run (DirStep 2) (oneZone twoEntries) [.delete 7] t ∧ ¬ Lists 2 1 t := by
  obtain ⟨t, y, hstep, hkept, hhole⟩ := twoEntries_hole
  refine ⟨t, .single hstep, ?_⟩
  rintro ⟨y', hy, slots, -, hslots, u, hrun⟩
  rw [hkept.inode] at hy
  cases hy
  have hdir : t.dirs 2 = some { inode := some 1, dirPos := 0, dirBuf := fun _ => 0 } := by
    rw [hkept.dirs]
    rfl
  have hmem : ∀ k, t.env.malloc k = true := fun k => by
    rw [hkept.env]
    rfl
  have hzone : ∀ k, zoneOf t.disk y k = if k = 0 then 900 else 0 := fun k => by
    rw [hkept.zone, zoneOf_zoneDir]
  have hhead : wp (fun _ => True) (rewindAndReadAll 2 (slots.length + 1))
      (fun es _ => es.head? = some none) t := by
    simp only [rewindAndReadAll, readAll, sysReaddir, sysRewinddir, dirAt, setDir, wp_bind, wp_get,
      wp_need, hdir, Option.some.injEq, forall_eq', implies_true, and_true, wp_modify]
    refine wp_mono (wp_readDir_hole (hkept.dirOk (oneZone_ok twoEntries)) hzone hhole.blank
      ⟨rfl, hkept.inode, ⟨_, rfl, rfl, rfl⟩, hmem⟩) ?_
    rintro r u rfl
    cases hrest : readAll 2 slots.length u with
    | error e => simp only [wp, hrest]
    | ok v => simp only [wp, hrest, pure_apply, List.head?_cons]
  have hnone := wp_ok hhead hrun
  cases slots with
  | nil =>
    have := (hslots 0 1).mpr (by rw [hhole.live]; simp)
    cases this
  | cons q qs =>
    simp only [List.map_cons, List.cons_append, List.head?_cons, Option.some.injEq] at hnone
    exact (hslots q.1 q.2).mp List.mem_cons_self hnone

theorem twoEntries_listing : ListingInv 2 1 (oneZone twoEntries) := by
  refine ⟨⟨zoneDir, 2, oneZone_packed (by decide) (fun q hq => ?_) fun q h1 h2 =>
    twoEntries_blank h2 h1⟩, fun _ => rfl⟩
  revert q
  unfold NotBlank
  decide +kernel

/-- A third entry is added, and all three are listed. -/
theorem readdir_after_run_add :
    ∃ t, Run (Guarded (KeepsListing 1) (DirStep 2)) (oneZone twoEntries)
      [.add (entryOf [122#8] 40 .regular)] t ∧ Lists 2 1 t := by
  obtain ⟨t, hstep⟩ := twoEntries_add
  have hok : KeepsListing 1 (oneZone twoEntries) (.add (entryOf [122#8] 40 .regular)) := by
    refine ⟨entryOf_ok (by decide) (by decide), by decide, by unfold NotBlank; decide, fun x hx => ?_⟩
    cases hx
    exact ⟨2, twoEntries_free (by decide) (by decide)⟩
  have hrun := @Run.single _ _ (Guarded (KeepsListing 1) (DirStep 2)) _ _ _ ⟨hok, hstep⟩
  exact ⟨t, hrun, readdir_after_run twoEntries_listing hrun⟩

end Frog.Fs
