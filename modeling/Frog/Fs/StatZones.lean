import Frog.Fs.InodeTable
import Frog.Fs.Rmdir
import Frog.Fs.WriteIndices

/-!
# The zones that are counted

`sys_stat` follows the addresses of an inode to the first zero, the address of the indirect table being
one of them, and adds one for everything but the root.
-/

namespace Frog.Fs

set_option autoImplicit false
open Bytes Prog

/-- The zones that hold data, the table not among them. -/
def dataZones (disk : Store) (x : Inode) : Nat :=
  (List.range 140).countP fun k => zoneOf disk x k ≠ 0

/-- The elements of `i_zones` that the loop reads, with the one that stops it. -/
def statReads (zones : Nat → Nat) : List Nat := List.range (firstZero zones + 1)

/-- `i_count` of the open inodes. -/
def openCounts (s : State) : List (Option Nat) := s.openInodes.map fun p => (s.inodes p).map Inode.iCount

/-- The inode that the path names. -/
inductive Named (s : State) (pathname : Name) : Nat → Inode → Prop where
  | root {p : Nat} {x : Inode} (h : pathname ∈ dotPaths) (hd : DirAt s rootDir p x) :
      Named s pathname 0 x
  | found {nr : Nat} {pdir : Option Dir} {u : State} (h : pathname ∉ dotPaths)
      (hf : searchFileWithPathname pathname s = .ok ((some nr, pdir), u)) :
      Named s pathname nr (inodeNow s nr)

def StatExact (s : State) (pathname : Name) (x : Inode) : Prop :=
  ∃ st t, sysStat pathname s = .ok (some st, t) ∧ st.stZones = dataZones s.disk x ∧
    (∀ junk k, k ∈ statReads (zoneWord x junk) → k < 13) ∧ openCounts t = openCounts s

/-- The first of the thirteen addresses that is zero. -/
def firstHole (x : Inode) : Option Nat := (List.range 13).find? fun k => x.iZones k = 0

/-- The zones from the address `k` on. -/
def zonesFrom (disk : Store) (x : Inode) (k : Nat) : Nat :=
  (List.range' k (140 - k)).countP fun j => zoneOf disk x j ≠ 0

section Count
variable {x : Inode} {k : Nat} {disk : Store}

theorem zoneWord_own (hw : x.InWidth) (hk : k < 13) (junk : Store) :
    zoneWord x junk k = x.iZones k := by
  unfold zoneWord
  rw [if_pos (by omega)]
  exact le32_of_bytes_lt (hw.iZones k) fun i hi => Inode.toBytes_zone hk hi

theorem firstZero_of_hole (hw : x.InWidth) (h : firstHole x = some k) (junk : Store) :
    firstZero (zoneWord x junk) = k := by
  obtain ⟨h0, hk, hall⟩ := List.find?_range_eq_some.mp h
  have hk := List.mem_range.mp hk
  refine firstZero_eq (by omega) ?_ fun j hj => ?_
  · rw [zoneWord_own hw hk]
    simpa using h0
  · rw [zoneWord_own hw (by omega)]
    simpa using hall j hj

theorem firstZero_zero {zones : Nat → Nat} (h : firstZero zones < 140) :
    zones (firstZero zones) = 0 := by
  unfold firstZero at h ⊢
  cases hf : (List.range 140).find? fun k => decide (zones k = 0) with
  | none =>
    rw [hf] at h
    exact absurd h (Nat.lt_irrefl _)
  | some k => simpa using List.find?_some hf

/-- Without a zero the loop leaves the array. -/
theorem firstZero_of_full (hw : x.InWidth) (h : firstHole x = none) (junk : Store) :
    13 ≤ firstZero (zoneWord x junk) := by
  by_contra hlt
  have hz : zoneWord x junk (firstZero (zoneWord x junk)) = 0 := firstZero_zero (by omega)
  rw [zoneWord_own hw (by omega)] at hz
  have := List.find?_eq_none.mp h _ (List.mem_range.mpr (by omega : firstZero (zoneWord x junk) < 13))
  simp [hz] at this

/-- All addresses before the first zero count. -/
theorem dataZones_eq (h : firstHole x = some k) : dataZones disk x = k + zonesFrom disk x k := by
  obtain ⟨h0, hk, hall⟩ := List.find?_range_eq_some.mp h
  have hk := List.mem_range.mp hk
  have hsplit : List.range 140 = List.range' 0 k ++ List.range' k (140 - k) := by
    have hsplit := List.range'_append_1 (s := 0) (m := k) (n := 140 - k)
    rw [Nat.zero_add, Nat.add_sub_of_le (by omega)] at hsplit
    rw [List.range_eq_range', hsplit]
  have hbefore : (List.range' 0 k).countP (fun j => zoneOf disk x j ≠ 0) = k := by
    rw [List.countP_eq_length.mpr, List.length_range']
    intro j hj
    have hj : j < k := by simpa using hj
    have hne : x.iZones j ≠ 0 := by simpa using hall j hj
    rw [decide_eq_true_iff, zoneOf, zoneArray, if_pos (by omega)]
    exact hne
  rw [dataZones, zonesFrom, hsplit, List.countP_append, hbefore]

theorem counted_iff (hw : x.InWidth) (junk : Store) (extra : Nat) :
    (firstZero (zoneWord x junk) + extra = dataZones disk x ∧
      ∀ junk k, k ∈ statReads (zoneWord x junk) → k < 13) ↔
    ∃ k ∈ firstHole x, zonesFrom disk x k = extra := by
  cases h : firstHole x with
  | none =>
    refine iff_of_false (fun ⟨_, hreads⟩ => ?_) fun ⟨k, hk, _⟩ => nomatch hk
    have hfull := firstZero_of_full hw h junk
    exact absurd (hreads junk 13 (List.mem_range.mpr (by omega))) (by decide)
  | some k =>
    have hk := List.mem_range.mp (List.find?_range_eq_some.mp h).2.1
    rw [firstZero_of_hole hw h, dataZones_eq h]
    simp only [Option.mem_def, Option.some.injEq, exists_eq_left']
    refine ⟨fun h => by omega, fun h => ⟨by omega, fun junk j hj => ?_⟩⟩
    rw [statReads, firstZero_of_hole hw ‹_›] at hj
    have := List.mem_range.mp hj
    omega

end Count

/-! ## The call -/

section Call
variable {s t u : State} {pathname : Name} {nr p : Nat} {pdir : Option Dir} {x : Inode}

theorem sysStat_root (h : pathname ∈ dotPaths) (hd : DirAt s rootDir p x) :
    sysStat pathname s = .ok (some (statOf 0 x (s.env.junk 0) 0), s.nextJunk) := by
  unfold sysStat
  rw [if_pos h, bind_ok (dirInode_some hd.1), bind_ok (inodeAt_some hd.2)]
  rfl

theorem sysStat_found (h : pathname ∉ dotPaths)
    (hf : searchFileWithPathname pathname s = .ok ((some nr, pdir), u)) :
    sysStat pathname s = (do
      let p ← inodeOpen nr
      let x ← inodeAt p
      let junk ← readJunk
      pure (some (statOf nr x junk 1)) : M (Option Stat)) u := by
  unfold sysStat
  rw [if_neg h, bind_ok hf]

/-- An open inode is looked at as it is. -/
theorem sysStat_inCore (h : pathname ∉ dotPaths)
    (hf : searchFileWithPathname pathname s = .ok ((some nr, pdir), u)) (hsame : SameFiles s u)
    (hin : inCore s nr = some p) : sysStat pathname s =
      .ok (some (statOf nr (inodeNow s nr) (u.env.junk 0) 1), u.nextJunk) := by
  obtain ⟨x, hx, -⟩ := findIn_inode hin
  have hnow : inodeNow s nr = x := by
    unfold inodeNow
    rw [hin, Option.bind_some, hx]
    rfl
  have hinu : inCore u nr = some p := (hsame.inCore nr).trans hin
  have hxu : u.inodes p = some x := hsame.inodes ▸ hx
  rw [sysStat_found h hf, bind_ok (inodeOpen_inCore hinu), bind_ok (inodeAt_some hxu), hnow]
  rfl

/-- The call opens nothing just when the path and the file are in memory. -/
theorem sysStat_open {r : Option Stat} (h : pathname ∉ dotPaths)
    (hf : searchFileWithPathname pathname s = .ok ((some nr, pdir), u))
    (hrun : sysStat pathname s = .ok (r, t)) (hlen : t.openInodes.length = s.openInodes.length) :
    PathInCore s pathname ∧ (inCore s nr).isSome = true := by
  obtain ⟨hle, hiff, hkept⟩ := search_open hf
  rw [sysStat_found h hf] at hrun
  obtain ⟨p, s₁, hopen, hrest⟩ := bind_eq_ok.mp hrun
  obtain ⟨x, s₂, hx, hrest'⟩ := bind_eq_ok.mp hrest
  obtain ⟨-, rfl⟩ := inodeAt_ok hx
  cases hrest'
  rcases inodeOpen_ok hopen with ⟨hin, rfl⟩ | ⟨-, -, e, rfl⟩
  · have hpath := hiff.mp hlen
    rw [← (hkept hpath).inCore, hin]
    exact ⟨hpath, rfl⟩
  · change u.openInodes.length + 1 = s.openInodes.length at hlen
    omega

/-- Behind the first zero there is nothing for the root, and for anything else exactly one zone. -/
def StatFits (s : State) (pathname : Name) (nr : Nat) (x : Inode) : Prop :=
  (pathname ∈ dotPaths → ∃ k ∈ firstHole x, zonesFrom s.disk x k = 0) ∧
  (pathname ∉ dotPaths → (∃ k ∈ firstHole x, zonesFrom s.disk x k = 1) ∧ PathInCore s pathname ∧
    (inCore s nr).isSome = true)

theorem statFits_dot (h : pathname ∈ dotPaths) :
    StatFits s pathname nr x ↔ ∃ k ∈ firstHole x, zonesFrom s.disk x k = 0 :=
  ⟨fun hf => hf.1 h, fun hf => ⟨fun _ => hf, fun hn => absurd h hn⟩⟩

theorem statFits_path (h : pathname ∉ dotPaths) : StatFits s pathname nr x ↔
    (∃ k ∈ firstHole x, zonesFrom s.disk x k = 1) ∧ PathInCore s pathname ∧
      (inCore s nr).isSome = true :=
  ⟨fun hf => hf.2 h, fun hf => ⟨fun hn => absurd hn h, fun _ => hf⟩⟩

theorem stat_exact_iff (hn : Named s pathname nr x) (hw : x.InWidth) :
    StatExact s pathname x ↔ StatFits s pathname nr x := by
  cases hn with
  | root h hd =>
    rw [statFits_dot h, ← counted_iff hw (s.env.junk 0)]
    constructor
    · rintro ⟨st, t, hrun, hzones, hreads, -⟩
      rw [sysStat_root h hd] at hrun
      cases hrun
      exact ⟨hzones, hreads⟩
    · rintro ⟨hzones, hreads⟩
      exact ⟨_, _, sysStat_root h hd, hzones, hreads, rfl⟩
  | @found _ _ u h hf =>
    rw [statFits_path h, ← counted_iff hw (u.env.junk 0)]
    constructor
    · rintro ⟨st, t, hrun, hzones, hreads, hcounts⟩
      have hlen : t.openInodes.length = s.openInodes.length := by
        simpa only [openCounts, List.length_map] using congrArg List.length hcounts
      obtain ⟨hpath, hin⟩ := sysStat_open h hf hrun hlen
      obtain ⟨p, hp⟩ := Option.isSome_iff_exists.mp hin
      rw [sysStat_inCore h hf ((search_open hf).2.2 hpath) hp] at hrun
      cases hrun
      exact ⟨⟨hzones, hreads⟩, hpath, hin⟩
    · rintro ⟨⟨hzones, hreads⟩, hpath, hin⟩
      have hsame := (search_open hf).2.2 hpath
      obtain ⟨p, hp⟩ := Option.isSome_iff_exists.mp hin
      refine ⟨_, _, sysStat_inCore h hf hsame hp, hzones, hreads, ?_⟩
      unfold openCounts
      rw [← hsame.openInodes, ← hsame.inodes]

theorem rootInode_inWidth : ({ zoneDir with iNum := 0, iSize := 72 } : Inode).InWidth := by
  have hzero : zeroInode.InWidth := Inode.inWidth_ofBytes _
  refine { hzero with
    iNum := by decide
    iMode := by decide
    iSize := by decide
    iCount := by decide
    iLock := by decide
    iZones := fun k => ?_
    zones_len := fun k hk => ?_ }
  · change (if k = 0 then 900 else if k < 13 then 0 else zeroInode.iZones k) < 2 ^ 32
    have := hzero.iZones k
    split_ifs <;> omega
  · change (if k = 0 then 900 else if k < 13 then 0 else zeroInode.iZones k) = 0
    rw [if_neg (by omega), if_neg (by omega)]
    exact hzero.zones_len k hk

/-- The root directory has one zone. -/
theorem stat_exact_root : StatExact rootWithChild [slash] { zoneDir with iNum := 0, iSize := 72 } := by
  have hfits : StatFits rootWithChild [slash] 0 { zoneDir with iNum := 0, iSize := 72 } :=
    (statFits_dot (by decide)).mpr ⟨1, by decide, by decide +kernel⟩
  exact (stat_exact_iff (.root (p := 1) (by decide) ⟨rfl, rfl⟩) rootInode_inWidth).mpr hfits

/-- Its child has one zone, too, and two are reported. -/
theorem stat_counts_one_more :
    (∃ u pdir, searchFileWithPathname [slash, 97#8, slash] rootWithChild = .ok ((some 1, pdir), u)) ∧
    dataZones rootWithChild.disk (inodeNow rootWithChild 1) = 1 ∧
    ∃ st t, sysStat [slash, 97#8, slash] rootWithChild = .ok (some st, t) ∧ st.stZones = 2 := by
  have hfound : (searchFileWithPathname [slash, 97#8, slash] rootWithChild).map (fun r => r.1.1) =
      .ok (some 1) := by decide +kernel
  have hstat : (sysStat [slash, 97#8, slash] rootWithChild).map
      (fun r => r.1.map Stat.stZones) = .ok (some 2) := by decide +kernel
  refine ⟨?_, by decide +kernel, ?_⟩
  · cases hrun : searchFileWithPathname [slash, 97#8, slash] rootWithChild with
    | error e =>
      rw [hrun] at hfound
      cases hfound
    | ok r =>
      obtain ⟨⟨found, pdir⟩, u⟩ := r
      rw [hrun] at hfound
      cases hfound
      exact ⟨u, pdir, rfl⟩
  · cases hrun : sysStat [slash, 97#8, slash] rootWithChild with
    | error e =>
      rw [hrun] at hstat
      cases hstat
    | ok r =>
      obtain ⟨st, t⟩ := r
      rw [hrun] at hstat
      cases st with
      | none => cases hstat
      | some st =>
        simp only [Except.map, Option.map_some, Except.ok.injEq, Option.some.injEq] at hstat
        exact ⟨st, t, rfl, hstat⟩

end Call

end Frog.Fs
