import Frog.Fs.Contents

/-!
# Reading a file

`file_read` copies `rd_len` bytes out of a staging buffer of one sector. The short path takes
them all from the sector of the position, also those that lie in the next one; the long path
counts the sectors of `rd_len` as if the position were at a sector's start.
-/

namespace Frog.Fs

set_option autoImplicit false
open Bytes Prog

variable {E : Stop → Prop} {s : State} {g : Nat}

/-- Bytes the turns of the loop copy when the first starts at its sector's start. -/
def turnBytes (left rdCountOffset : Nat) : Nat :=
  if left = 0 then 0 else if rdCountOffset = 0 then 512 * left else 512 * (left - 1) + rdCountOffset

theorem turnBytes_succ (left c : Nat) :
    turnBytes (left + 1) c = (readTurn 0 c (left = 0)).2 + turnBytes left c := by
  unfold turnBytes readTurn
  by_cases hl : left = 0 <;> by_cases hc : c = 0 <;> simp [hl, hc] <;> omega

/-- The loop with every turn at its sector's start copies consecutive bytes. -/
theorem wp_readChunks {zones : Nat → Nat} {z c left : Nat} (hc : c < 512) :
    ∀ {s : State} {i cur : Nat} {dest : Store} {Q : Store → State → Prop},
      (s.fileTable g).fdPos < 2 ^ 32 →
      (∀ j, j < left → zones (z + i + j) ≤ maxLba) →
      Q (patch dest cur (turnBytes left c) fun k =>
          s.disk (512 * zones (z + i + k / 512) + k % 512)) (s.advanced g (turnBytes left c)) →
      wp E (readChunks g zones z c left i 0 cur dest) Q s := by
  induction left with
  | zero =>
    intro s i cur dest Q hp _ hQ
    simp only [turnBytes, if_true, patch_zero, advanced_zero hp] at hQ
    exact hQ
  | succ left ih =>
    intro s i cur dest Q hp hz hQ
    have hz0 : zones (z + i) ≤ maxLba := hz 0 (by omega)
    have hturn : (readTurn 0 c (left = 0)).1 = 0 ∧ (readTurn 0 c (left = 0)).2 ≤ 512 ∧
        (left ≠ 0 → (readTurn 0 c (left = 0)).2 = 512) := by
      unfold readTurn
      by_cases hl : left = 0 <;> by_cases hc0 : c = 0 <;> simp [hl, hc0]
      omega
    obtain ⟨ho, hle, hfull⟩ := hturn
    rw [turnBytes_succ] at hQ
    simp only [readChunks, wp_bind, wp_ideRead_one hz0, wp_advance]
    apply ih
    · rw [advanced_fdPos]
      exact u32_lt _
    · intro j hj
      have := hz (1 + j) (by omega)
      rwa [show z + (i + 1) + j = z + i + (1 + j) by omega]
    · rw [advanced_advanced, patch_append]
      convert hQ using 1
      refine patch_congr fun k hk => ?_
      by_cases h1 : k < (readTurn 0 c (left = 0)).2
      · have hb : k < 512 * 1 := by omega
        rw [if_pos h1, ho, Nat.zero_add, sectors_apply hb, show k / 512 = 0 by omega,
          show k % 512 = k by omega, Nat.add_zero]
      · have hl : left ≠ 0 := by
          intro h0
          have hz : turnBytes left c = 0 := if_pos h0
          omega
        rw [hfull hl] at h1 hk ⊢
        rw [if_neg h1, advanced_disk, show z + (i + 1) + (k - 512) / 512 = z + i + k / 512 by omega,
          show (k - 512) % 512 = k % 512 by omega]

/-- The state once `file_read` has its staging buffer and its zone addresses. -/
def State.staging (s : State) : State := s.nextMalloc.nextJunk

variable {p : Nat} {x : Inode} {count : Nat} {dest : Store}
  {Q : Option Nat × Store → State → Prop}

/-- `file_read` up to the choice of a path. -/
theorem wp_fileRead {n pos : Nat} (ho : OpenAt s g p x) (hf : FileOk s.disk x)
    (hfd : (s.fileTable g).fdPos = pos) (hpos : pos < x.iSize) (hm : s.env.malloc 0 = true)
    (hn : readLen x.iSize pos count = n) :
    wp E (fileRead g dest count) Q s ↔
      (n < 512 →
        wp E (do
          let ioBuf ← ideRead (zoneOf s.disk x (pos / 512)) 1
          let behind ← readJunk
          advance g n
          pure (some n, patch dest 0 n fun k => staged ioBuf behind (pos % 512 + k))) Q s.staging) ∧
      (512 ≤ n →
        wp E (readChunks g (fileZones x (tableOf s.disk x) (s.env.junk 0)) (pos / 512) (n % 512)
            (divRoundUp n 512) 0 (pos % 512) 0 dest)
          (fun d t => Q (some n, d) t) s.staging) := by
  have hsize := hf.size_le
  unfold maxFileSize at hsize
  have heof : u32 (x.iSize + 1) = x.iSize + 1 := u32_of_lt (by omega)
  have hz : fileZones x (tableOf s.disk x) (s.env.junk 0) (pos / 512) = zoneOf s.disk x (pos / 512) :=
    hf.fileZones_eq _ (by omega)
  have hle : pos ≤ x.iSize := by omega
  have hle1 : pos ≤ x.iSize + 1 := by omega
  have hz140 : pos / 512 < 140 := by omega
  unfold fileRead State.staging
  simp [hm, ho.slot, ho.inode, hfd, heof, hn, wp_readTable hf.table, hz, hle, hle1, hz140]

/-! ## Reads that end inside the first sector or start at a sector -/

/-- No byte of a short read lies in the next sector, and a long one starts at a sector. -/
def ReadFits (pos n : Nat) : Prop := pos % 512 = 0 ∨ pos % 512 + n ≤ 512

instance (pos n : Nat) : Decidable (ReadFits pos n) := inferInstanceAs (Decidable (_ ∨ _))

/-- What a call that read `n` bytes leaves. -/
structure ReadDone (s t : State) (g n : Nat) : Prop where
  disk : t.disk = s.disk
  inodes : t.inodes = s.inodes
  fileTable : t.fileTable = (s.advanced g n).fileTable
  malloc : t.env.malloc = fun k => s.env.malloc (k + 1)

theorem turnBytes_divRoundUp {n : Nat} (h : n < 2 ^ 31) :
    turnBytes (divRoundUp n 512) (n % 512) = n := by
  have hu : u32 (n + 511) = n + 511 := u32_of_lt (by omega)
  unfold turnBytes divRoundUp
  rw [show (512 : Nat) - 1 = 511 from rfl, hu]
  by_cases h0 : (n + 511) / 512 = 0
  · rw [if_pos h0]
    omega
  · rw [if_neg h0]
    by_cases hc : n % 512 = 0
    · rw [if_pos hc]
      omega
    · rw [if_neg hc]
      omega

theorem fileRead_fits {n pos : Nat} (ho : OpenAt s g p x) (hf : FileOk s.disk x)
    (hfd : (s.fileTable g).fdPos = pos) (hpos : pos < x.iSize) (hm : s.env.malloc 0 = true)
    (hn : readLen x.iSize pos count = n) (hfit : ReadFits pos n) :
    wp E (fileRead g dest count) (fun r t =>
      r = (some n, patch dest 0 n fun k => fileByte s.disk x (pos + k)) ∧ ReadDone s t g n) s := by
  have hsize := hf.size_le
  unfold maxFileSize at hsize
  have hle : pos + n ≤ x.iSize := by
    rw [← hn]
    unfold readLen u32Sub
    omega
  rw [wp_fileRead ho hf hfd hpos hm hn]
  refine ⟨fun hshort => ?_, fun hlong => ?_⟩
  · have hz := (hf.zone (pos / 512) (by omega)).2
    simp only [wp_bind, wp_ideRead_one hz, wp_readJunk, wp_advance, wp_pure]
    refine ⟨?_, rfl, rfl, rfl, rfl⟩
    congr 1
    refine patch_congr fun k hk => ?_
    have hb : pos % 512 + k < 512 := by
      rcases hfit with h | h <;> omega
    unfold staged fileByte
    rw [if_pos hb, sectors_apply (by omega), show (pos + k) / 512 = pos / 512 by omega,
      show (pos + k) % 512 = pos % 512 + k by omega]
    rfl
  · have hoff : pos % 512 = 0 := by
      rcases hfit with h | h <;> omega
    have hcnt : divRoundUp n 512 = (n + 511) / 512 := by
      unfold divRoundUp u32
      omega
    rw [hoff]
    refine wp_readChunks (Nat.mod_lt _ (by norm_num)) (by simp only [State.staging]; omega) ?_ ?_
    · intro j hj
      rw [hcnt] at hj
      rw [Nat.add_zero, hf.fileZones_eq _ (by omega)]
      exact (hf.zone _ (by omega)).2
    · rw [turnBytes_divRoundUp (by omega)]
      refine ⟨?_, rfl, rfl, rfl, rfl⟩
      congr 1
      refine patch_congr fun k hk => ?_
      rw [Nat.add_zero, hf.fileZones_eq _ (by omega)]
      unfold fileByte
      rw [show (pos + k) / 512 = pos / 512 + k / 512 by omega,
        show (pos + k) % 512 = k % 512 by omega]
      rfl

/-! ## Exactly these reads are right -/

/-- The call returns `min count (i_size - fd_pos)` bytes of the file, stores nothing else and
advances the position by as much. -/
def ReadsBytes (s : State) (g : Nat) (x : Inode) (dest : Store) (count : Nat) : Prop :=
  let pos := (s.fileTable g).fdPos
  let n := min count (x.iSize - pos)
  ∃ t, fileRead g dest count s =
      .ok ((some n, patch dest 0 n fun k => fileByte s.disk x (pos + k)), t) ∧
    (t.fileTable g).fdPos = pos + n

theorem readLen_eq {size pos : Nat} (h : pos < size) (hs : size < 2 ^ 32) (count : Nat) :
    readLen size pos count = min count (size - pos) := by
  unfold readLen u32Sub
  omega

/-- A short read past the end of its sector takes the bytes behind the staging buffer. -/
theorem not_readsBytes_short {n pos : Nat} (ho : OpenAt s g p x) (hf : FileOk s.disk x)
    (hfd : (s.fileTable g).fdPos = pos) (hpos : pos < x.iSize) (hm : s.env.malloc 0 = true)
    (hn : readLen x.iSize pos count = n) (hshort : n < 512) (hfit : 512 < pos % 512 + n)
    (hj : s.env.junk 1 0 ≠ fileByte s.disk x (pos + (512 - pos % 512))) :
    ¬ ReadsBytes s g x dest count := by
  rintro ⟨t, hrun, -⟩
  have hsize := hf.size_le
  unfold maxFileSize at hsize
  have hz := (hf.zone (pos / 512) (by omega)).2
  have hread : wp (fun _ => True) (fileRead g dest count) (fun r _ =>
      r.2 (512 - pos % 512) = s.env.junk 1 0) s := by
    rw [wp_fileRead ho hf hfd hpos hm hn]
    refine ⟨fun _ => ?_, fun h => by omega⟩
    simp only [wp_bind, wp_ideRead_one hz, wp_readJunk, wp_advance, wp_pure]
    rw [patch_in (by omega), staged, if_neg (by omega)]
    rw [show pos % 512 + (512 - pos % 512 - 0) - 512 = 0 by omega]
    rfl
  have hbyte := wp_ok hread hrun
  simp only [hfd, ← readLen_eq hpos (by omega) count, hn] at hbyte
  rw [patch_in (by omega)] at hbyte
  exact hj hbyte.symm

/-- A long read that starts inside a sector advances by too little. -/
theorem not_readsBytes_long {n pos : Nat} (ho : OpenAt s g p x) (hf : FileOk s.disk x)
    (hfd : (s.fileTable g).fdPos = pos) (hpos : pos < x.iSize) (hm : s.env.malloc 0 = true)
    (hn : readLen x.iSize pos count = n) (hlong : 512 ≤ n) (hfit : 0 < pos % 512) :
    ¬ ReadsBytes s g x dest count := by
  rintro ⟨t, hrun, hend⟩
  have hsize := hf.size_le
  unfold maxFileSize at hsize
  have hle : pos + n ≤ x.iSize := by
    rw [← hn, readLen_eq hpos (by omega)]
    omega
  have hcnt : divRoundUp n 512 = (n + 511) / 512 := by
    unfold divRoundUp u32
    omega
  have hz : ∀ j, j < divRoundUp n 512 →
      fileZones x (tableOf s.disk x) (s.env.junk 0) (pos / 512 + j) ≤ maxLba := by
    intro j hj
    rw [hf.fileZones_eq _ (by omega)]
    exact (hf.zone _ (by omega)).2
  obtain ⟨left, hleft⟩ : ∃ left, divRoundUp n 512 = left + 1 :=
    Nat.exists_eq_succ_of_ne_zero (by omega)
  have hbytes : 512 - pos % 512 + turnBytes left (n % 512) = n - pos % 512 := by
    have hall := turnBytes_divRoundUp (n := n) (by omega)
    rw [hleft, turnBytes_succ] at hall
    unfold readTurn at hall
    unfold turnBytes at hall ⊢
    by_cases hl : left = 0 <;> by_cases hc : n % 512 = 0 <;> simp [hl, hc] at hall ⊢ <;> omega
  have hread : wp (fun _ => True) (fileRead g dest count) (fun _ t =>
      (t.fileTable g).fdPos = u32 (pos + (n - pos % 512))) s := by
    rw [wp_fileRead ho hf hfd hpos hm hn]
    refine ⟨fun h => by omega, fun _ => ?_⟩
    have h0 := hz 0 (by omega)
    rw [Nat.add_zero] at h0
    rw [hleft] at hz ⊢
    simp only [readChunks, wp_bind, Nat.add_zero, wp_ideRead_one h0, wp_advance, readTurn, if_pos hfit]
    refine wp_readChunks (Nat.mod_lt _ (by norm_num)) ?_ ?_ ?_
    · rw [advanced_fdPos]
      exact u32_lt _
    · intro j hj
      have := hz (1 + j) (by omega)
      rwa [← Nat.add_assoc] at this
    · rw [advanced_advanced, hbytes, advanced_fdPos]
      simp only [State.staging, hfd]
  have hstop := wp_ok hread hrun
  simp only [hfd, ← readLen_eq hpos (by omega) count, hn] at hend
  rw [hstop] at hend
  unfold u32 at hend
  omega

/-- Without a staging buffer there is no result. -/
theorem not_readsBytes_malloc (hm : s.env.malloc 0 = false) : ¬ ReadsBytes s g x dest count := by
  rintro ⟨t, hrun, -⟩
  have hnone : wp (fun _ => True) (fileRead g dest count) (fun r _ => r.1 = none) s := by
    unfold fileRead
    simp [hm]
  have := wp_ok hnone hrun
  simp at this

/-- A caller that reads in pieces, each stored behind the one before; it stops at an error. -/
def readLoop (g : Nat) : List Nat → Nat → Store → M (Nat × Store)
  | [], cur, dest => pure (cur, dest)
  | count :: counts, cur, dest => do
    let (r, chunk) ← fileRead g (fun k => dest (cur + k)) count
    match r with
    | none => pure (cur, dest)
    | some n => readLoop g counts (cur + n) fun a => if cur ≤ a then chunk (a - cur) else dest a

/-- Every piece starts below the size and fits. -/
def ChunksFit (size : Nat) : Nat → List Nat → Prop
  | _, [] => True
  | pos, count :: counts =>
    pos < size ∧ ReadFits pos (min count (size - pos)) ∧
      ChunksFit size (pos + min count (size - pos)) counts

/-- Writing through a pointer into a buffer. -/
theorem patch_shift (dest f : Store) (cur n : Nat) :
    (fun a => if cur ≤ a then patch (fun k => dest (cur + k)) 0 n f (a - cur) else dest a) =
      patch dest cur n f := by
  funext a
  unfold patch
  by_cases h : cur ≤ a
  · rw [if_pos h]
    by_cases h2 : a < cur + n
    · rw [if_pos (by omega), if_pos ⟨h, h2⟩, Nat.sub_zero]
    · rw [if_neg (by omega), if_neg (by omega)]
      exact congrArg dest (by omega)
  · rw [if_neg h, if_neg (by omega)]

theorem wp_readLoop (hf : FileOk s.disk x) :
    ∀ {counts : List Nat} {t : State} {cur pos : Nat} {dest : Store}, OpenAt t g p x →
      t.disk = s.disk → (∀ k, t.env.malloc k = true) → (t.fileTable g).fdPos = pos →
      pos ≤ x.iSize → ChunksFit x.iSize pos counts →
      wp E (readLoop g counts cur dest) (fun r _ =>
        r = (cur + min counts.sum (x.iSize - pos),
          patch dest cur (min counts.sum (x.iSize - pos)) fun k => fileByte s.disk x (pos + k))) t := by
  intro counts
  induction counts with
  | nil =>
    intro t cur pos dest _ _ _ _ _ _
    simp [readLoop]
  | cons count counts ih =>
    intro t cur pos dest ho hd hm hfd hle hfit
    obtain ⟨hlt, hfits, hrest⟩ := hfit
    have hsize := hf.size_le
    unfold maxFileSize at hsize
    have hlen := readLen_eq hlt (by omega) count
    generalize hn : min count (x.iSize - pos) = n at hlen hfits hrest
    have hstep : wp E (fileRead g (fun k => dest (cur + k)) count) _ t :=
      fileRead_fits ho (hd ▸ hf) hfd hlt (hm 0) hlen hfits
    simp only [readLoop, wp_bind]
    refine wp_mono hstep ?_
    rintro ⟨r, chunk⟩ u ⟨hr, hdone⟩
    obtain ⟨rfl, rfl⟩ := Prod.mk.injEq .. ▸ hr
    have hslot : u.fileTable g = (t.advanced g n).fileTable g := by rw [hdone.fileTable]
    have hpos' : (u.fileTable g).fdPos = pos + n := by
      rw [hslot, advanced_fdPos, hfd]
      exact u32_of_lt (by omega)
    have ho' : OpenAt u g p x := by
      refine ⟨?_, by rw [hdone.inodes]; exact ho.inode⟩
      rw [hslot]
      simpa [State.advanced] using ho.slot
    have hnext : wp E (readLoop g counts (cur + n)
        (patch dest cur n fun k => fileByte s.disk x (pos + k))) _ u :=
      ih ho' (hdone.disk.trans hd) (by rw [hdone.malloc]; exact fun k => hm (k + 1)) hpos' (by omega)
        hrest
    simp only [patch_shift, hd]
    refine wp_mono hnext ?_
    rintro r v rfl
    rw [patch_append, List.sum_cons]
    have hsum : n + min counts.sum (x.iSize - (pos + n)) =
        min (count + counts.sum) (x.iSize - pos) := by omega
    refine Prod.ext (by rw [← hsum, Nat.add_assoc]) ?_
    simp only [hsum]
    refine patch_congr fun k hk => ?_
    by_cases hkn : k < n
    · rw [if_pos hkn]
    · rw [if_neg hkn, show pos + n + (k - n) = pos + k by omega]

/-- `file_read` is right exactly for the reads that fit, and pieces that fit add up. -/
theorem fileRead_exact (ho : OpenAt s g p x) (hf : FileOk s.disk x)
    (hpos : (s.fileTable g).fdPos < x.iSize) (count : Nat) (dest : Store) :
    ((∀ junk, ReadsBytes (s.withJunk junk) g x dest count) ↔
      s.env.malloc 0 = true ∧
        ReadFits (s.fileTable g).fdPos (min count (x.iSize - (s.fileTable g).fdPos))) ∧
    ∀ counts, (∀ k, s.env.malloc k = true) → ChunksFit x.iSize (s.fileTable g).fdPos counts →
      ∃ t, readLoop g counts 0 dest s = .ok
        ((min counts.sum (x.iSize - (s.fileTable g).fdPos),
          patch dest 0 (min counts.sum (x.iSize - (s.fileTable g).fdPos)) fun k =>
            fileByte s.disk x ((s.fileTable g).fdPos + k)), t) := by
  have hsize := hf.size_le
  unfold maxFileSize at hsize
  have hlen := readLen_eq hpos (by omega) count
  refine ⟨⟨fun hall => ?_, fun ⟨hm, hfit⟩ junk => ?_⟩, fun counts hm hfit => ?_⟩
  · have hm : s.env.malloc 0 = true := by
      by_contra h
      exact not_readsBytes_malloc (s := s.withJunk s.env.junk) (Bool.eq_false_of_not_eq_true h) (hall _)
    refine ⟨hm, ?_⟩
    by_contra hfit
    unfold ReadFits at hfit
    push Not at hfit
    by_cases hn : min count (x.iSize - (s.fileTable g).fdPos) < 512
    · -- the first byte behind the staging buffer differs from the file's
      refine not_readsBytes_short (s := s.withJunk fun _ _ => fileByte s.disk x
        ((s.fileTable g).fdPos + (512 - (s.fileTable g).fdPos % 512)) + 1)
        ⟨ho.slot, ho.inode⟩ hf rfl hpos hm hlen hn hfit.2 ?_ (hall _)
      simp [State.withJunk]
    · exact not_readsBytes_long (s := s.withJunk s.env.junk) ⟨ho.slot, ho.inode⟩ hf rfl hpos hm hlen
        (by omega) (Nat.pos_of_ne_zero hfit.1) (hall _)
  · have hrun : wp (fun _ => False) (fileRead g dest count) _ (s.withJunk junk) :=
      fileRead_fits ⟨ho.slot, ho.inode⟩ hf rfl hpos hm hlen hfit
    obtain ⟨r, t, hrun, rfl, hdone⟩ := ok_of_wp hrun
    refine ⟨t, hrun, ?_⟩
    rw [hdone.fileTable, advanced_fdPos]
    exact u32_of_lt (by simp only [State.withJunk]; omega)
  · have hrun : wp (fun _ => False) (readLoop g counts 0 dest) _ s :=
      wp_readLoop hf ho rfl hm rfl (by omega) hfit
    obtain ⟨r, t, hrun, rfl⟩ := ok_of_wp hrun
    exact ⟨t, by simpa using hrun⟩

/-! ## A file of two sectors -/

def twoSectors : Inode :=
  { ((regularInode 1).setZone 0 5000).setZone 1 5001 with iSize := 1024, iCount := 1 }

/-- Slot 3 is four bytes before the second sector; the disk is empty and unwritten memory holds
ones. -/
def atSectorEnd : State :=
  { State.boot with
    inodes := Function.update (fun _ => none) 1 (some twoSectors)
    fileTable := Function.update State.boot.fileTable 3
      { fdPos := 508, fdFlag := 0, fdInode := some 1 }
    env := { State.boot.env with junk := fun _ _ => 1 } }

theorem atSectorEnd_open : OpenAt atSectorEnd 3 1 twoSectors := ⟨rfl, rfl⟩

theorem twoSectors_ok : FileOk atSectorEnd.disk twoSectors := by
  refine ⟨by decide, fun k hk => ?_, by decide⟩
  have hk2 : k < 2 := by
    have : twoSectors.iSize = 1024 := rfl
    omega
  interval_cases k <;> decide

/-- Eight bytes from position 508: the last four come from behind the staging buffer. -/
theorem fileRead_across_sectors :
    OpenAt atSectorEnd 3 1 twoSectors ∧ FileOk atSectorEnd.disk twoSectors ∧
      (atSectorEnd.fileTable 3).fdPos < twoSectors.iSize ∧ atSectorEnd.env.malloc 0 = true ∧
      ¬ ReadsBytes atSectorEnd 3 twoSectors (fun _ => 0) 8 := by
  refine ⟨atSectorEnd_open, twoSectors_ok, by decide, rfl, ?_⟩
  exact not_readsBytes_short atSectorEnd_open twoSectors_ok rfl (by decide) rfl
    (show readLen _ _ _ = 8 by decide +kernel) (by decide) (by decide) (by decide)

theorem fileRead_exact_two_sectors :
    (∀ junk, ReadsBytes (atSectorEnd.withJunk junk) 3 twoSectors (fun _ => 0) 4) ↔
      atSectorEnd.env.malloc 0 = true ∧ ReadFits 508 4 :=
  (fileRead_exact atSectorEnd_open twoSectors_ok (by decide) 4 fun _ => 0).1

end Frog.Fs
