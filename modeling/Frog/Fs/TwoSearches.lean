import Frog.Fs.DirLookup
import Frog.Fs.Rmdir
import Frog.Lib.Watch

/-!
# Two searches of a directory

`search_dir_entry` and `search_file` look through the zones of a directory for a name, each in its own
way. The sectors that they look at are noted.
-/

namespace Frog.Fs

set_option autoImplicit false
open Bytes Prog

/-! ## The sectors that are looked at -/

abbrev Looked := Watched Stop State (List Nat)

namespace Looked

def look (lba : Nat) : Looked Store := do
  note (· ++ [lba])
  watch (ideRead lba 1)

/-- Zone after zone, until one answers. -/
def scan {β : Type} (f : Store → Option β) (last : β) (zones : Nat → Nat) : Nat → Nat → Looked β
  | 0, _ => pure last
  | left + 1, i => do
    let buf ← look (zones i)
    match f buf with
    | some b => pure b
    | none => scan f last zones left (i + 1)

def searchFile (d : Nat) (name : Name) : Looked (Option Nat) := do
  let p ← watch (dirInode d)
  let x ← watch (inodeAt p)
  let table ← if x.iZones 12 = 0 then pure fun _ => 0 else do
    watch (mustMalloc 512)
    look (x.iZones 12)
  watch (mustMalloc 512)
  scan (searchSector name) none (dirZones x table) 140 0

def prefixZones (x : Inode) (i : Nat) : Nat := if i < 12 then directPrefix x i else 0

def searchDirEntry (d : Nat) (name : Name) : Looked (Option DirEntry) := do
  let ok ← watch (sysMalloc 560)
  watch (check (ok = true) .panic)
  let p ← watch (dirInode d)
  let x ← watch (inodeAt p)
  watch (mustMalloc 512)
  scan (fun buf => (searchPrefix name buf perSector 0).map some) none (prefixZones x) 140 0

theorem look_watches (lba : Nat) : Watches (look lba) (ideRead lba 1) :=
  .note_bind (.watch _)

theorem scan_searchZones (name : Name) (zones : Nat → Nat) (left i : Nat) :
    Watches (scan (searchSector name) none zones left i) (searchZones name zones left i) := by
  induction left generalizing i with
  | zero => exact .pure none
  | succ left ih =>
    refine (look_watches _).bind fun buf => ?_
    cases searchSector name buf with
    | some r => exact .pure r
    | none => exact ih (i + 1)

theorem scan_searchPrefixZones (name : Name) (zones : Nat → Nat) (left i : Nat) :
    Watches (scan (fun buf => (searchPrefix name buf perSector 0).map some) none zones left i)
      (searchPrefixZones name zones left i) := by
  induction left generalizing i with
  | zero => exact .pure none
  | succ left ih =>
    refine (look_watches _).bind fun buf => ?_
    simp only
    cases searchPrefix name buf perSector 0 with
    | some e => exact .pure (some e)
    | none => exact ih (i + 1)

theorem searchFile_watches (d : Nat) (name : Name) :
    Watches (searchFile d name) (Fs.searchFile d name) := by
  refine (Watches.watch _).bind fun p => (Watches.watch _).bind fun x => ?_
  have hscan : ∀ table, Watches (do
      watch (mustMalloc 512)
      scan (searchSector name) none (dirZones x table) 140 0 : Looked _) (do
      mustMalloc 512
      searchZones name (dirZones x table) 140 0) := fun table =>
    (Watches.watch _).bind fun _ => scan_searchZones _ _ _ _
  exact .ite (fun _ => (Watches.pure _).bind hscan) fun _ => (Watches.watch _).bind fun _ =>
    (look_watches _).bind hscan

theorem searchDirEntry_watches (d : Nat) (name : Name) :
    Watches (searchDirEntry d name) (Fs.searchDirEntry d name) := by
  refine (Watches.watch _).bind fun ok => (Watches.watch _).bind fun _ => ?_
  refine (Watches.watch _).bind fun p => (Watches.watch _).bind fun x => ?_
  exact (Watches.watch _).bind fun _ => scan_searchPrefixZones _ _ _ _

section Scan
variable {β : Type} {f : Store → Option β} {last b : β} {zones : Nat → Nat} {s : State}
variable {seen : List Nat} {t : State × List Nat} {lba k left i : Nat} {buf : Store}

theorem look_eq_ok : look lba (s, seen) = .ok (buf, t) ↔
    lba ≤ maxLba ∧ buf = sectorAt s.disk lba ∧ t = (s, seen ++ [lba]) := by
  have hrun : look lba (s, seen) = watch (ideRead lba 1) (s, seen ++ [lba]) := rfl
  rw [hrun]
  by_cases h : lba ≤ maxLba
  · have hread : ideRead lba 1 s = .ok (sectorAt s.disk lba, s) := by
      unfold ideRead
      exact bind_ok (a := ()) (check_eq_ok.mpr ⟨⟨by decide, by omega⟩, rfl⟩)
    simp only [watch, hread, Except.ok.injEq, Prod.mk.injEq, h, true_and, eq_comm]
  · refine iff_of_false (fun hok => ?_) fun hok => h hok.1
    obtain ⟨hread, -⟩ := watch_eq_ok hok
    obtain ⟨_, _, hc, -⟩ := bind_eq_ok.mp hread
    exact h (by have := (check_eq_ok.mp hc).1.2; omega)

theorem shift (i j : Nat) : i + (j + 1) = i + 1 + j := by omega

theorem scan_ok (h : scan f last zones left i (s, seen) = .ok (b, t)) :
    (∃ k, k < left ∧ (∀ j, j ≤ k → zones (i + j) ≤ maxLba) ∧
      f (sectorAt s.disk (zones (i + k))) = some b ∧
      (∀ j, j < k → f (sectorAt s.disk (zones (i + j))) = none) ∧
      t = (s, seen ++ (List.range' i (k + 1)).map zones)) ∨
    b = last ∧ t = (s, seen ++ (List.range' i left).map zones) := by
  induction left generalizing i seen with
  | zero =>
    cases h
    exact .inr ⟨rfl, by simp⟩
  | succ left ih =>
    obtain ⟨buf, u, hlook, hrest⟩ := bind_eq_ok.mp h
    obtain ⟨hle, rfl, rfl⟩ := Iff.mp look_eq_ok hlook
    cases hf : f (sectorAt s.disk (zones i)) with
    | some b' =>
      rw [hf] at hrest
      cases hrest
      refine .inl ⟨0, Nat.succ_pos _, fun j hj => ?_, hf, fun j hj => absurd hj (Nat.not_lt_zero j), rfl⟩
      rw [Nat.le_zero.mp hj]
      exact hle
    | none =>
      rw [hf] at hrest
      rcases ih hrest with ⟨k, hk, hz, hhit, hmiss, rfl⟩ | ⟨rfl, rfl⟩
      · refine .inl ⟨k + 1, by omega, fun j hj => ?_, ?_, fun j hj => ?_, ?_⟩
        · cases j with
          | zero => exact hle
          | succ j => exact shift i j ▸ hz j (by omega)
        · exact shift i k ▸ hhit
        · cases j with
          | zero => exact hf
          | succ j => exact shift i j ▸ hmiss j (by omega)
        · rw [List.range'_succ (n := k + 1), List.map_cons, List.append_assoc]
          rfl
      · refine .inr ⟨rfl, ?_⟩
        rw [List.range'_succ, List.map_cons, List.append_assoc]
        rfl

theorem scan_hit (hk : k < left) (hz : ∀ j, j ≤ k → zones (i + j) ≤ maxLba)
    (hhit : f (sectorAt s.disk (zones (i + k))) = some b)
    (hmiss : ∀ j, j < k → f (sectorAt s.disk (zones (i + j))) = none) :
    scan f last zones left i (s, seen) = .ok (b, (s, seen ++ (List.range' i (k + 1)).map zones)) := by
  induction left generalizing i k seen with
  | zero => exact absurd hk (Nat.not_lt_zero k)
  | succ left ih =>
    have h0 : zones i ≤ maxLba := hz 0 (Nat.zero_le k)
    have hlook : look (zones i) (s, seen) = .ok (_, _) := Iff.mpr look_eq_ok ⟨h0, rfl, rfl⟩
    unfold scan
    rw [bind_ok hlook]
    cases k with
    | zero =>
      simp only [Nat.add_zero] at hhit ⊢
      rw [hhit]
      rfl
    | succ k =>
      have hf := hmiss 0 (Nat.succ_pos k)
      simp only [Nat.add_zero] at hf ⊢
      simp only [hf]
      rw [ih (by omega) (fun j hj => shift i j ▸ hz (j + 1) (by omega)) (shift i k ▸ hhit)
        fun j hj => shift i j ▸ hmiss (j + 1) (by omega), List.range'_succ (n := k + 1), List.map_cons,
        List.append_assoc]
      rfl

end Scan

end Looked

/-! ## The entries that both pass and find -/

def startsWith (name : Name) (e : DirEntry) : Bool :=
  (List.range name.length).all fun j => e.filename j == name.getD j 0

section Prefix
variable {name : Name} {buf : Store} {left i : Nat} {e : DirEntry}

theorem searchPrefix_succ : searchPrefix name buf (left + 1) i =
    if startsWith name (entryAt buf i) = true then some (entryAt buf i)
    else if (entryAt buf i).filename 0 = 0 then none
    else searchPrefix name buf left (i + 1) := rfl

/-- Entries behind a blank name are not seen. -/
theorem searchPrefix_none : searchPrefix name buf left i = none ↔ ∀ m, m < left →
    (∀ n, n < m → (entryAt buf (i + n)).filename 0 ≠ 0) →
      startsWith name (entryAt buf (i + m)) = false := by
  induction left generalizing i with
  | zero => exact iff_of_true rfl fun m hm => absurd hm (Nat.not_lt_zero m)
  | succ left ih =>
    rw [searchPrefix_succ]
    by_cases hs : startsWith name (entryAt buf i) = true
    · rw [if_pos hs]
      refine iff_of_false nofun fun h => ?_
      have h0 := h 0 (Nat.succ_pos _) fun n hn => absurd hn (Nat.not_lt_zero n)
      rw [Nat.add_zero, hs] at h0
      cases h0
    rw [if_neg hs]
    have hs := Bool.eq_false_iff.mpr hs
    by_cases hb : (entryAt buf i).filename 0 = 0
    · rw [if_pos hb]
      refine iff_of_true rfl fun m hm hshown => ?_
      cases m with
      | zero => exact hs
      | succ m => exact absurd hb (hshown 0 (Nat.succ_pos m))
    rw [if_neg hb, ih]
    constructor
    · intro h m hm hshown
      cases m with
      | zero => exact hs
      | succ m =>
        rw [Looked.shift]
        exact h m (by omega) fun n hn => Looked.shift i n ▸ hshown (n + 1) (by omega)
    · intro h m hm hshown
      rw [← Looked.shift]
      refine h (m + 1) (by omega) fun n hn => ?_
      cases n with
      | zero => exact hb
      | succ n =>
        rw [Looked.shift]
        exact hshown n (by omega)

theorem searchPrefix_some : searchPrefix name buf left i = some e ↔ ∃ m, m < left ∧
    startsWith name (entryAt buf (i + m)) = true ∧ entryAt buf (i + m) = e ∧
    ∀ n, n < m → startsWith name (entryAt buf (i + n)) = false ∧
      (entryAt buf (i + n)).filename 0 ≠ 0 := by
  induction left generalizing i with
  | zero =>
    refine iff_of_false nofun ?_
    rintro ⟨m, hm, -⟩
    exact Nat.not_lt_zero m hm
  | succ left ih =>
    rw [searchPrefix_succ]
    by_cases hs : startsWith name (entryAt buf i) = true
    · rw [if_pos hs]
      constructor
      · intro h
        cases h
        exact ⟨0, Nat.succ_pos _, hs, rfl, fun n hn => absurd hn (Nat.not_lt_zero n)⟩
      · rintro ⟨m, -, -, rfl, hbefore⟩
        cases m with
        | zero => rfl
        | succ m =>
          have h0 := (hbefore 0 (Nat.succ_pos m)).1
          rw [Nat.add_zero, hs] at h0
          cases h0
    rw [if_neg hs]
    have hs := Bool.eq_false_iff.mpr hs
    by_cases hb : (entryAt buf i).filename 0 = 0
    · rw [if_pos hb]
      refine iff_of_false nofun ?_
      rintro ⟨m, -, hstart, -, hbefore⟩
      cases m with
      | zero =>
        rw [Nat.add_zero, hs] at hstart
        cases hstart
      | succ m => exact (hbefore 0 (Nat.succ_pos m)).2 hb
    rw [if_neg hb, ih]
    constructor
    · rintro ⟨m, hm, hstart, he, hbefore⟩
      refine ⟨m + 1, by omega, Looked.shift i m ▸ hstart, Looked.shift i m ▸ he, fun n hn => ?_⟩
      cases n with
      | zero => exact ⟨hs, hb⟩
      | succ n => exact Looked.shift i n ▸ hbefore n (by omega)
    · rintro ⟨m, hm, hstart, he, hbefore⟩
      cases m with
      | zero =>
        rw [Nat.add_zero, hs] at hstart
        cases hstart
      | succ m =>
        exact ⟨m, by omega, Looked.shift i m ▸ hstart, Looked.shift i m ▸ he,
          fun n hn => Looked.shift i n ▸ hbefore (n + 1) (by omega)⟩

end Prefix

/-- No blank name comes before the entry in its sector. -/
def Shown (disk : Store) (x : Inode) (k i : Nat) : Prop :=
  ∀ m, m < i → (dirSlot disk x k m).filename 0 ≠ 0

/-- Entry `m` of zone `j` comes before entry `i` of zone `k`. -/
def Before (j m k i : Nat) : Prop := j < k ∨ j = k ∧ m < i

/-- The first entry on show that begins with the name; its zone is direct, and so are all before it. -/
structure FirstPrefix (disk : Store) (x : Inode) (name : Name) (k i : Nat) : Prop where
  zone : k < 12
  slot : i < perSector
  direct : ∀ j, j ≤ k → x.iZones j ≠ 0 ∧ x.iZones j ≤ maxLba
  shown : Shown disk x k i
  begins : startsWith name (dirSlot disk x k i) = true
  before : ∀ j m, m < perSector → Before j m k i → Shown disk x j m →
    startsWith name (dirSlot disk x j m) = false

/-- An entry with another name. An unused one ends `search_file`. -/
def Passed (name : Name) (e : DirEntry) : Prop :=
  isDots e = true ∨ Numbered e ∧ strEq e.filename name = false

structure FirstNamed (disk : Store) (x : Inode) (name : Name) (k i : Nat) : Prop where
  slot : i < perSector
  numbered : Numbered (dirSlot disk x k i)
  named : strEq (dirSlot disk x k i).filename name = true
  before : ∀ j m, m < perSector → Before j m k i → Passed name (dirSlot disk x j m)

/-- There is memory, and the first entry that begins with the name has it, with the number of the
first entry of that name. -/
structure FoundByBoth (s : State) (x : Inode) (name : Name) : Prop where
  memory : s.env.malloc 0 = true ∧ s.env.malloc 1 = true
  table : x.iZones 12 ≤ maxLba
  entries : ∃ k i k' i', FirstPrefix s.disk x name k i ∧
    strEq (dirSlot s.disk x k i).filename name = true ∧ FirstNamed s.disk x name k' i' ∧
    (dirSlot s.disk x k' i').iNo = (dirSlot s.disk x k i).iNo ∧
    (dirSlot s.disk x k i).iNo ≠ 2 ^ 32 - 1

/-- The sectors seen are those of the directory, and all its zones unless an entry was found. -/
structure Covers (disk : Store) (x : Inode) (found : Bool) (seen : List Nat) : Prop where
  only : ∀ lba ∈ seen, DirSector disk x lba
  all : found = false → ∀ k, k < 140 → zoneOf disk x k ≠ 0 → zoneOf disk x k ∈ seen

def SearchesAgree (s : State) (d : Nat) (x : Inode) (name : Name) : Prop :=
  ∃ r r' t t' seen seen', Looked.searchDirEntry d name (s, []) = .ok (r, (t, seen)) ∧
    Looked.searchFile d name (s, []) = .ok (r', (t', seen')) ∧ r.map DirEntry.iNo = r' ∧
    (∀ e ∈ r, strEq e.filename name = true) ∧
    (∀ nr ∈ r', ∃ lba ∈ seen', ∃ i, i < perSector ∧ (entryAt (sectorAt s.disk lba) i).iNo = nr ∧
      strEq (entryAt (sectorAt s.disk lba) i).filename name = true) ∧
    Covers s.disk x r.isSome seen ∧ Covers s.disk x r'.isSome seen'

section Runs
variable {s : State} {d p : Nat} {x : Inode} {name : Name} {r : Option Nat} {e : Option DirEntry}
variable {u : State × List Nat}

theorem mustMalloc_eq_ok {n : Nat} {v : Unit} {t : State} (hn : n ≠ 0) :
    mustMalloc n s = .ok (v, t) ↔ s.env.malloc 0 = true ∧ t = s.nextMalloc := by
  unfold mustMalloc
  rw [bind_ok (sysMalloc_ok hn)]
  exact check_eq_ok

theorem searchDirEntry_run (hd : DirAt s d p x) (h0 : s.env.malloc 0 = true)
    (h1 : s.env.malloc 1 = true) : Looked.searchDirEntry d name (s, []) =
      Looked.scan (fun buf => (searchPrefix name buf perSector 0).map some) none
        (Looked.prefixZones x) 140 0 (s.nextMalloc.nextMalloc, []) := by
  unfold Looked.searchDirEntry
  rw [bind_ok (watch_ok (sysMalloc_ok (by decide))),
    bind_ok (watch_ok (check_eq_ok (u := ()).mpr ⟨h0, rfl⟩)),
    bind_ok (watch_ok (dirInode_some (s := s.nextMalloc) hd.1)),
    bind_ok (watch_ok (inodeAt_some (s := s.nextMalloc) hd.2)),
    bind_ok (watch_ok ((mustMalloc_eq_ok (v := ()) (by decide)).mpr ⟨h1, rfl⟩))]

theorem searchDirEntry_memory (hd : DirAt s d p x)
    (h : Looked.searchDirEntry d name (s, []) = .ok (e, u)) :
    s.env.malloc 0 = true ∧ s.env.malloc 1 = true := by
  unfold Looked.searchDirEntry at h
  rw [bind_ok (watch_ok (sysMalloc_ok (by decide)))] at h
  obtain ⟨_, ⟨s₁, k⟩, hcheck, hrest⟩ := bind_eq_ok.mp h
  obtain ⟨h0, rfl⟩ := check_eq_ok.mp (watch_eq_ok hcheck).1
  rw [bind_ok (watch_ok (dirInode_some (s := s.nextMalloc) hd.1)),
    bind_ok (watch_ok (inodeAt_some (s := s.nextMalloc) hd.2))] at hrest
  obtain ⟨_, s₂, hm, -⟩ := bind_eq_ok.mp hrest
  exact ⟨h0, ((mustMalloc_eq_ok (by decide)).mp (watch_eq_ok hm).1).1⟩

theorem searchFile_eq (hd : DirAt s d p x) : Looked.searchFile d name (s, []) =
    (if x.iZones 12 = 0 then do
      watch (mustMalloc 512)
      Looked.scan (searchSector name) none (dirZones x fun _ => 0) 140 0
    else do
      watch (mustMalloc 512)
      let table ← Looked.look (x.iZones 12)
      watch (mustMalloc 512)
      Looked.scan (searchSector name) none (dirZones x table) 140 0 : Looked _) (s, []) := by
  unfold Looked.searchFile
  rw [bind_ok (watch_ok (dirInode_some hd.1)), bind_ok (watch_ok (inodeAt_some hd.2))]
  by_cases hx : x.iZones 12 = 0
  · rw [if_pos hx, if_pos hx]
    rfl
  · rw [if_neg hx, if_neg hx]

/-- `search_file` may look at the indirect table first. -/
theorem searchFile_run (name : Name) (hd : DirAt s d p x) (h0 : s.env.malloc 0 = true)
    (h1 : s.env.malloc 1 = true) (htable : x.iZones 12 ≤ maxLba) : ∃ s₁ seen,
      s₁.disk = s.disk ∧ (∀ lba ∈ seen, DirSector s.disk x lba) ∧
      Looked.searchFile d name (s, []) =
        Looked.scan (searchSector name) none (zoneOf s.disk x) 140 0 (s₁, seen) := by
  have hm : mustMalloc 512 s = .ok ((), s.nextMalloc) :=
    (mustMalloc_eq_ok (by decide)).mpr ⟨h0, rfl⟩
  rw [searchFile_eq hd]
  by_cases hx : x.iZones 12 = 0
  · have hzones : zoneOf s.disk x = dirZones x fun _ => 0 := by
      funext k
      rw [zoneOf, tableOf, if_pos hx]
      rfl
    refine ⟨s.nextMalloc, [], rfl, fun lba hlba => absurd hlba List.not_mem_nil, ?_⟩
    rw [if_pos hx, bind_ok (watch_ok hm), hzones]
  · have hzones : zoneOf s.disk x = dirZones x (sectorAt s.disk (x.iZones 12)) := by
      funext k
      rw [zoneOf, tableOf, if_neg hx]
      rfl
    have hlook : Looked.look (x.iZones 12) (s.nextMalloc, []) = .ok (_, _) :=
      Iff.mpr Looked.look_eq_ok ⟨htable, rfl, rfl⟩
    have hm' : mustMalloc 512 s.nextMalloc = .ok ((), s.nextMalloc.nextMalloc) :=
      (mustMalloc_eq_ok (by decide)).mpr ⟨h1, rfl⟩
    refine ⟨s.nextMalloc.nextMalloc, [x.iZones 12], rfl, fun lba hlba => ?_, ?_⟩
    · rw [List.mem_singleton.mp hlba]
      exact ⟨hx, .inr rfl⟩
    · rw [if_neg hx, bind_ok (watch_ok hm), bind_ok hlook, bind_ok (watch_ok hm'), hzones]
      rfl

theorem searchFile_table (hd : DirAt s d p x) (h : Looked.searchFile d name (s, []) = .ok (r, u)) :
    x.iZones 12 ≤ maxLba := by
  by_cases hx : x.iZones 12 = 0
  · rw [hx]
    exact Nat.zero_le _
  · rw [searchFile_eq hd, if_neg hx] at h
    obtain ⟨_, ⟨s₁, k⟩, -, hrest⟩ := bind_eq_ok.mp h
    obtain ⟨buf, _, hlook, -⟩ := bind_eq_ok.mp hrest
    exact (Iff.mp Looked.look_eq_ok hlook).1

end Runs

/-! ## When they agree -/

section Agree
variable {s : State} {d p k k' i i' : Nat} {x : Inode} {name : Name} {disk : Store} {e : DirEntry}

theorem prefixZones_ne (h : Looked.prefixZones x k ≠ 0) :
    k < 12 ∧ (∀ j, j ≤ k → x.iZones j ≠ 0) ∧ Looked.prefixZones x k = x.iZones k := by
  unfold Looked.prefixZones at h ⊢
  by_cases hk : k < 12
  · rw [if_pos hk] at h ⊢
    unfold directPrefix at h ⊢
    split_ifs at h with hall
    · rw [if_pos hall]
      have hall' : ∀ j, j < k + 1 → x.iZones j ≠ 0 := by simpa using hall
      exact ⟨hk, fun j hj => hall' j (by omega), rfl⟩
    · exact absurd rfl h
  · rw [if_neg hk] at h
    exact absurd rfl h

theorem prefixZones_eq (disk : Store) (hk : k < 12) (h : ∀ j, j ≤ k → x.iZones j ≠ 0) :
    Looked.prefixZones x k = zoneOf disk x k := by
  unfold Looked.prefixZones
  rw [if_pos hk, directPrefix_of_ne h, zoneOf_direct hk]

theorem searchEntry_passed : searchEntry name e = none ↔ Passed name e := by
  have hdots : (strEq e.filename dot || strEq e.filename dotDot) = isDots e := rfl
  unfold searchEntry Passed
  rw [hdots]
  by_cases h1 : isDots e = true
  · rw [if_pos h1]
    exact iff_of_true rfl (.inl h1)
  rw [if_neg h1]
  by_cases h2 : e.iNo = 0 ∧ e.fType = 0
  · rw [if_pos h2]
    exact iff_of_false nofun fun h => (h.resolve_left h1).1 h2
  rw [if_neg h2]
  by_cases h3 : strEq e.filename name = true
  · rw [if_pos h3]
    refine iff_of_false nofun fun h => ?_
    rw [(h.resolve_left h1).2] at h3
    cases h3
  · rw [if_neg h3]
    exact iff_of_true rfl (.inr ⟨h2, Bool.eq_false_iff.mpr h3⟩)

theorem orMinusOne_some {v w : Nat} : orMinusOne v = some w ↔ v = w ∧ v ≠ 2 ^ 32 - 1 := by
  unfold orMinusOne
  split_ifs with h
  · exact iff_of_false nofun fun hvw => hvw.2 h
  · rw [Option.some.injEq]
    exact ⟨fun he => ⟨he, h⟩, fun he => he.1⟩

/-! ### `search_dir_entry` -/

theorem sectorPrefix_some (hk : k < 12) (hne : ∀ j, j ≤ k → x.iZones j ≠ 0) :
    searchPrefix name (sectorAt disk (Looked.prefixZones x k)) perSector 0 = some e ↔
      ∃ i, i < perSector ∧ startsWith name (dirSlot disk x k i) = true ∧ dirSlot disk x k i = e ∧
        Shown disk x k i ∧ ∀ m, m < i → startsWith name (dirSlot disk x k m) = false := by
  rw [prefixZones_eq disk hk hne, searchPrefix_some]
  simp only [Nat.zero_add, forall_and]
  refine exists_congr fun i => and_congr_right fun _ => and_congr_right fun _ => and_congr_right fun _ => ?_
  exact ⟨fun h => ⟨h.2, h.1⟩, fun h => ⟨h.2, h.1⟩⟩

theorem sectorPrefix_none (hk : k < 12) (hne : ∀ j, j ≤ k → x.iZones j ≠ 0) :
    searchPrefix name (sectorAt disk (Looked.prefixZones x k)) perSector 0 = none ↔
      ∀ m, m < perSector → Shown disk x k m → startsWith name (dirSlot disk x k m) = false := by
  rw [prefixZones_eq disk hk hne, searchPrefix_none]
  simp only [Nat.zero_add]
  exact Iff.rfl

theorem firstPrefix_iff (hk : k < 12) (hne : ∀ j, j ≤ k → x.iZones j ≠ 0 ∧ x.iZones j ≤ maxLba) :
    (searchPrefix name (sectorAt disk (Looked.prefixZones x k)) perSector 0 = some e ∧
      ∀ j, j < k → searchPrefix name (sectorAt disk (Looked.prefixZones x j)) perSector 0 = none) ↔
    ∃ i, FirstPrefix disk x name k i ∧ dirSlot disk x k i = e := by
  have hz : ∀ j, j ≤ k → ∀ j', j' ≤ j → x.iZones j' ≠ 0 := fun j hj j' hj' => (hne j' (by omega)).1
  rw [sectorPrefix_some hk (hz k le_rfl)]
  constructor
  · rintro ⟨⟨i, hi, hbegins, he, hshown, hbefore⟩, hmiss⟩
    refine ⟨i, ⟨hk, hi, hne, hshown, hbegins, fun j m hm hj hjm => ?_⟩, he⟩
    rcases hj with hj | ⟨rfl, hmi⟩
    · exact (sectorPrefix_none (by omega) (hz j hj.le)).mp (hmiss j hj) m hm hjm
    · exact hbefore m hmi
  · rintro ⟨i, h, he⟩
    refine ⟨⟨i, h.slot, h.begins, he, h.shown, fun m hm => ?_⟩, fun j hj => ?_⟩
    · exact h.before k m (hm.trans h.slot) (.inr ⟨rfl, hm⟩) fun n hn => h.shown n (hn.trans hm)
    · exact (sectorPrefix_none (by omega) (hz j hj.le)).mpr fun m hm hjm =>
        h.before j m hm (.inl hj) hjm

/-! ### `search_file` -/

theorem searchSector_none : searchSector name (sectorAt disk (zoneOf disk x k)) = none ↔
    ∀ i, i < perSector → Passed name (dirSlot disk x k i) := by
  unfold searchSector
  rw [Scan.findSome_range_none]
  exact forall_congr' fun i => imp_congr_right fun _ => searchEntry_passed

theorem firstNamed_iff (hn : OrdinaryName name) {nr : Nat} :
    (searchSector name (sectorAt disk (zoneOf disk x k)) = some (some nr) ∧
      ∀ j, j < k → searchSector name (sectorAt disk (zoneOf disk x j)) = none) ↔
    ∃ i, FirstNamed disk x name k i ∧ (dirSlot disk x k i).iNo = nr ∧ nr ≠ 2 ^ 32 - 1 := by
  have hsector : searchSector name (sectorAt disk (zoneOf disk x k)) = some (some nr) ↔
      ∃ i, i < perSector ∧ searchEntry name (dirSlot disk x k i) = some (some nr) ∧
        ∀ m, m < i → Passed name (dirSlot disk x k m) := by
    unfold searchSector
    rw [Scan.findSome_range_some]
    simp only [searchEntry_passed]
    exact Iff.rfl
  simp only [hsector, searchSector_none]
  constructor
  · rintro ⟨⟨i, hi, hentry, hbefore⟩, hmiss⟩
    rcases searchEntry_some hentry with ⟨-, hnone⟩ | ⟨hnum, hnamed, hnr⟩
    · cases hnone
    · obtain ⟨heq, hmax⟩ := orMinusOne_some.mp hnr.symm
      refine ⟨i, ⟨hi, hnum, hnamed, fun j m hm hj => ?_⟩, heq, heq ▸ hmax⟩
      rcases hj with hj | ⟨rfl, hmi⟩
      · exact hmiss j hj m hm
      · exact hbefore m hmi
  · rintro ⟨i, h, rfl, hmax⟩
    refine ⟨⟨i, h.slot, ?_, fun m hm => h.before k m (hm.trans h.slot) (.inr ⟨rfl, hm⟩)⟩,
      fun j hj m hm => h.before j m hm (.inl hj)⟩
    unfold searchEntry
    rw [not_dots hn h.named, if_neg (by simp), if_neg h.numbered, if_pos h.named,
      orMinusOne_some.mpr ⟨rfl, hmax⟩]

/-! ### Both -/

theorem mem_seen {zones : Nat → Nat} {seen : List Nat} {lba n : Nat} :
    lba ∈ seen ++ (List.range' 0 n).map zones ↔ lba ∈ seen ∨ ∃ j, j < n ∧ zones j = lba := by
  simp [List.mem_range'_1]

/-- What the first search found, if it saw nothing but the directory. -/
theorem FirstPrefix.of_search {r : Option DirEntry} {t : State} {seen : List Nat} (hd : DirAt s d p x)
    (hrun : Looked.searchDirEntry d name (s, []) = .ok (r, (t, seen)))
    (honly : ∀ lba ∈ seen, DirSector s.disk x lba) :
    ∃ k i, FirstPrefix s.disk x name k i ∧ r = some (dirSlot s.disk x k i) := by
  obtain ⟨h0, h1⟩ := searchDirEntry_memory hd hrun
  rw [searchDirEntry_run hd h0 h1] at hrun
  rcases Looked.scan_ok hrun with ⟨k, hk, hle, hhit, hmiss, hseen⟩ | ⟨-, hseen⟩ <;> cases hseen
  · simp only [Nat.zero_add, Option.map_eq_none_iff, Option.map_eq_some_iff] at hle hhit hmiss
    obtain ⟨e, he, rfl⟩ := hhit
    have hz : ∀ j, j ≤ k → Looked.prefixZones x j ≠ 0 := fun j hj =>
      (honly _ (mem_seen.mpr (.inr ⟨j, by omega, rfl⟩))).1
    have hne : ∀ j, j ≤ k → x.iZones j ≠ 0 ∧ x.iZones j ≤ maxLba := fun j hj => by
      obtain ⟨-, hall, heq⟩ := prefixZones_ne (hz j hj)
      exact ⟨hall j le_rfl, heq ▸ hle j hj⟩
    obtain ⟨i, hfirst, rfl⟩ := (firstPrefix_iff (prefixZones_ne (hz k le_rfl)).1 hne).mp ⟨he, hmiss⟩
    exact ⟨k, i, hfirst, rfl⟩
  · exact absurd rfl (honly 0 (mem_seen.mpr (.inr ⟨139, by decide, rfl⟩))).1

theorem FirstNamed.of_search {nr : Nat} {t : State} {seen : List Nat} (hd : DirAt s d p x)
    (hn : OrdinaryName name) (h0 : s.env.malloc 0 = true) (h1 : s.env.malloc 1 = true)
    (hrun : Looked.searchFile d name (s, []) = .ok (some nr, (t, seen))) :
    ∃ k i, FirstNamed s.disk x name k i ∧ (dirSlot s.disk x k i).iNo = nr ∧ nr ≠ 2 ^ 32 - 1 := by
  obtain ⟨s₁, seen₀, hdisk, -, heq⟩ := searchFile_run name hd h0 h1 (searchFile_table hd hrun)
  rw [heq] at hrun
  rcases Looked.scan_ok hrun with ⟨k, -, -, hhit, hmiss, -⟩ | ⟨hr, -⟩
  · simp only [Nat.zero_add, hdisk] at hhit hmiss
    exact ⟨k, (firstNamed_iff hn).mp ⟨hhit, hmiss⟩⟩
  · cases hr

/-- An entry that has the name is not behind the first one. -/
theorem FirstNamed.le (h : FirstNamed disk x name k' i') (hn : OrdinaryName name) (hi : i < perSector)
    (hnamed : strEq (dirSlot disk x k i).filename name = true) : k' ≤ k := by
  by_contra hlt
  rcases h.before k i hi (.inl (by omega)) with hdots | ⟨-, hno⟩
  · rw [isDots, not_dots hn hnamed] at hdots
    cases hdots
  · rw [hnamed] at hno
    cases hno

theorem searches_agree_iff (hd : DirAt s d p x) (hn : OrdinaryName name) :
    SearchesAgree s d x name ↔ FoundByBoth s x name := by
  constructor
  · rintro ⟨r, r', t, t', seen, seen', hrun, hrun', hsame, hwhole, -, hcov, -⟩
    obtain ⟨h0, h1⟩ := searchDirEntry_memory hd hrun
    obtain ⟨k, i, hfirst, rfl⟩ := FirstPrefix.of_search hd hrun hcov.only
    subst hsame
    obtain ⟨k', i', hnamed, hnr, hmax⟩ := FirstNamed.of_search hd hn h0 h1 hrun'
    exact ⟨⟨h0, h1⟩, searchFile_table hd hrun', k, i, k', i', hfirst, hwhole _ rfl, hnamed, hnr, hmax⟩
  · rintro ⟨⟨h0, h1⟩, htable, k, i, k', i', hfirst, hwhole, hnamed, hnr, hmax⟩
    have hk := hfirst.zone
    have hk' := hnamed.le hn hfirst.slot hwhole
    obtain ⟨hhit, hmiss⟩ := (firstPrefix_iff hk hfirst.direct).mpr ⟨i, hfirst, rfl⟩
    obtain ⟨hhit', hmiss'⟩ := (firstNamed_iff hn).mpr ⟨i', hnamed, hnr, hmax⟩
    obtain ⟨s₁, seen₀, hdisk, honly, heq⟩ := searchFile_run name hd h0 h1 htable
    have hzone : ∀ j, j ≤ k → zoneOf s.disk x j = x.iZones j := fun j hj => zoneOf_direct (by omega)
    have hdirect : ∀ j, j ≤ k → Looked.prefixZones x j = x.iZones j := fun j hj => by
      rw [prefixZones_eq s.disk (by omega) fun j' hj' => (hfirst.direct j' (by omega)).1,
        hzone j hj]
    have hsector : ∀ j, j ≤ k → DirSector s.disk x (x.iZones j) := fun j hj =>
      ⟨(hfirst.direct j hj).1, .inl ⟨j, hzone j hj⟩⟩
    have hrun : Looked.scan (fun buf => (searchPrefix name buf perSector 0).map some) none
        (Looked.prefixZones x) 140 0 (s.nextMalloc.nextMalloc, []) =
        .ok (some (dirSlot s.disk x k i), (_, _)) := Looked.scan_hit (k := k) (by omega)
      (fun j hj => by rw [Nat.zero_add, hdirect j hj]; exact (hfirst.direct j hj).2)
      (by rw [Nat.zero_add]; exact congrArg _ hhit)
      (fun j hj => by rw [Nat.zero_add]; exact congrArg _ (hmiss j hj))
    have hrun' : Looked.scan (searchSector name) none (zoneOf s.disk x) 140 0 (s₁, seen₀) =
        .ok (some (dirSlot s.disk x k i).iNo, (_, _)) := Looked.scan_hit (k := k') (by omega)
      (fun j hj => by rw [Nat.zero_add, hzone j (by omega)]; exact (hfirst.direct j (by omega)).2)
      (by rw [Nat.zero_add, hdisk]; exact hhit')
      (fun j hj => by rw [Nat.zero_add, hdisk]; exact hmiss' j hj)
    refine ⟨_, _, _, _, _, _, (searchDirEntry_run hd h0 h1).trans hrun, heq.trans hrun', rfl, ?_, ?_, ?_, ?_⟩
    · rintro e ⟨⟩
      exact hwhole
    · rintro nr ⟨⟩
      exact ⟨zoneOf s.disk x k', mem_seen.mpr (.inr ⟨k', by omega, rfl⟩), i', hnamed.slot, hnr,
        hnamed.named⟩
    · refine ⟨fun lba hlba => ?_, nofun⟩
      obtain ⟨j, hj, rfl⟩ := (mem_seen.mp hlba).resolve_left List.not_mem_nil
      rw [hdirect j (by omega)]
      exact hsector j (by omega)
    · refine ⟨fun lba hlba => ?_, nofun⟩
      rcases mem_seen.mp hlba with hlba | ⟨j, hj, rfl⟩
      · exact honly lba hlba
      · rw [hzone j (by omega)]
        exact hsector j (by omega)

end Agree

/-- Directory 2 with one entry besides the dots. -/
def oneEntry (name : Name) : State := oneZone (putEntry (dotsSector 5 0) 2 (entryOf name 7 .regular))

theorem searches_agree_on_a : SearchesAgree (oneEntry [97#8]) 2 zoneDir [97#8] := by
  have hbegins : ∀ m, m < 2 → startsWith [97#8] (dirSlot (oneEntry [97#8]).disk zoneDir 0 m) = false := by
    decide +kernel
  have hdots : ∀ m, m < 2 → isDots (dirSlot (oneEntry [97#8]).disk zoneDir 0 m) = true := by
    decide +kernel
  have hshown : ∀ m, m < 2 → (dirSlot (oneEntry [97#8]).disk zoneDir 0 m).filename 0 ≠ 0 := by
    decide +kernel
  have hnum : (dirSlot (oneEntry [97#8]).disk zoneDir 0 2).iNo = 7 := by decide +kernel
  have hname : strEq (dirSlot (oneEntry [97#8]).disk zoneDir 0 2).filename [97#8] = true := by
    decide +kernel
  refine (searches_agree_iff (p := 1) ⟨rfl, rfl⟩ ⟨by decide, by decide, by decide⟩).mpr
    ⟨⟨rfl, rfl⟩, by decide, 0, 2, 0, 2, ⟨by decide, by decide, fun j hj => ?_, hshown,
      by decide +kernel, fun j m _ hj _ => ?_⟩, hname, ⟨by decide, fun h => ?_, hname,
      fun j m _ hj => ?_⟩, rfl, by rw [hnum]; decide⟩
  · rw [Nat.le_zero.mp hj]
    exact ⟨by decide, by decide⟩
  · rcases hj with hj | ⟨rfl, hm⟩
    · exact absurd hj (Nat.not_lt_zero j)
    · exact hbegins m hm
  · rw [hnum] at h
    exact absurd h.1 (by decide)
  · rcases hj with hj | ⟨rfl, hm⟩
    · exact absurd hj (Nat.not_lt_zero j)
    · exact .inl (hdots m hm)

/-- The entry "ab" is found under the name "a" by one of the searches. -/
theorem prefix_found_by_one : (∃ e t, searchDirEntry 2 [97#8] (oneEntry [97#8, 98#8]) = .ok (some e, t)) ∧
    ∃ t, searchFile 2 [97#8] (oneEntry [97#8, 98#8]) = .ok (none, t) := by
  refine ⟨?_, ok_of_result (by decide +kernel)⟩
  have hsome : (searchDirEntry 2 [97#8] (oneEntry [97#8, 98#8])).map (fun r => r.1.isSome) =
      .ok true := by decide +kernel
  cases hrun : searchDirEntry 2 [97#8] (oneEntry [97#8, 98#8]) with
  | error e =>
    rw [hrun] at hsome
    cases hsome
  | ok r =>
    obtain ⟨r, t⟩ := r
    rw [hrun] at hsome
    cases r with
    | none => cases hsome
    | some e => exact ⟨e, t, rfl⟩

end Frog.Fs
