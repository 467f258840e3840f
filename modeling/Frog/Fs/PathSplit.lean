import Frog.Fs.Locks

/-!
# Splitting a path

A path falls into directories, each with the slash behind it, and a last name. `path_peel` takes
the pieces off from the end, whatever their number, if each is shorter than the buffer; a doubled
slash is a piece of its own.
-/

namespace Frog.Fs

set_option autoImplicit false
open Bytes Prog

/-! ## What is asked for -/

def maxFileNameLen : Nat := 16

/-- The names between the slashes. -/
def components (path : Name) : List Name := (path.splitOn slash).filter (· ≠ [])

/-- The names with a slash behind them. -/
def dirComponents (path : Name) : List Name :=
  if path.getLast? = some slash then components path else (components path).dropLast

/-- Every name fits into a slot, with its slash and a terminator. -/
def Fits (path : Name) : Prop :=
  (∀ c ∈ components path, c.length < maxFileNameLen) ∧
    ∀ c ∈ dirComponents path, c.length + 1 < maxFileNameLen

def State.withTail (s : State) (rest : Name) : State :=
  { s with env := { s.env with tail := fun _ => rest } }

/-- No byte is written outside the buffers; the caller of `path_dirs` brings a slot for each name. -/
structure SplitsSafely (s : State) (path : Name) : Prop where
  peel : pathPeel path s ≠ .error .fault
  depth : pathDepth path s ≠ .error .fault
  dirs : pathDirs path (components path).length s ≠ .error .fault

structure SplitsRight (s : State) (path : Name) : Prop where
  peel : ∃ parent last, pathPeel path s = .ok ((parent, last), s) ∧ parent ++ last = path ∧
    last.length < maxFileNameLen
  depth : ∃ t, pathDepth path s = .ok ((components path).length, t)
  dirs : ∃ t, pathDirs path (components path).length s =
    .ok (some ((dirComponents path).reverse.map (· ++ [slash])), t)

/-- Whatever lies behind the copy, the split is safe. It is right, or a name is too long and
`path_dirs` says so. -/
def SplitsExactly (s : State) (path : Name) : Prop :=
  ∀ rest, SplitsSafely (s.withTail rest) path ∧
    (Fits path → SplitsRight (s.withTail rest) path) ∧
    (¬ Fits path → ∃ t, pathDirs path (components path).length (s.withTail rest) = .ok (none, t))

def Apart (a b : Byte) : Prop := ¬ (a = slash ∧ b = slash)

/-- A path below the root without a doubled slash or a name that is too long, whose copy has a byte
to spare. -/
structure Plain (path : Name) : Prop where
  below : path ≠ [slash]
  single : path.IsChain Apart
  fits : Fits path
  spare : hasTerminator path.length = true

/-! ## The parts of a path -/

/-- A path below the root: its directories, which may be empty, and its last name, which is empty if
the path ends with a slash. -/
structure Parts where
  dirs : List Name
  last : Name
  dirs_free : ∀ d ∈ dirs, slash ∉ d
  last_free : slash ∉ last

def dirPath (ds : List Name) : Name := slash :: ds.flatMap (· ++ [slash])

namespace Parts

def path (p : Parts) : Name := dirPath p.dirs ++ p.last

/-- What `path_peel` takes off, the first name first. -/
def pieces (p : Parts) : List Name :=
  p.dirs.map (· ++ [slash]) ++ if p.last = [] then [] else [p.last]

theorem of_absolute (rest : Name) : ∃ p : Parts, p.path = slash :: rest := by
  induction rest with
  | nil => exact ⟨⟨[], [], by simp, by simp⟩, rfl⟩
  | cons c cs ih =>
    obtain ⟨⟨ds, last, hds, hlast⟩, hp⟩ := ih
    have hcs : ds.flatMap (· ++ [slash]) ++ last = cs := List.cons.inj hp |>.2
    by_cases hc : c = slash
    · refine ⟨⟨[] :: ds, last, ?_, hlast⟩, ?_⟩
      · simpa using hds
      · simp [path, dirPath, hc, hcs]
    · cases ds with
      | nil =>
        refine ⟨⟨[], c :: last, by simp, ?_⟩, ?_⟩
        · simpa [eq_comm] using ⟨hc, hlast⟩
        · rw [← hcs]
          rfl
      | cons d ds =>
        have hd := hds d List.mem_cons_self
        refine ⟨⟨(c :: d) :: ds, last, ?_, hlast⟩, ?_⟩
        · intro e he
          rcases List.mem_cons.mp he with rfl | he
          · simpa [eq_comm] using ⟨hc, hd⟩
          · exact hds e (List.mem_cons_of_mem _ he)
        · rw [← hcs]
          rfl

theorem splitOn_dirs (ds : List Name) (last : Name) (hds : ∀ d ∈ ds, slash ∉ d) (hl : slash ∉ last) :
    (ds.flatMap (· ++ [slash]) ++ last).splitOn slash = ds ++ [last] := by
  induction ds with
  | nil => exact List.splitOn_eq_singleton hl
  | cons d ds ih =>
    have hsplit : (d :: ds).flatMap (· ++ [slash]) ++ last =
        d ++ slash :: (ds.flatMap (· ++ [slash]) ++ last) := by simp
    rw [hsplit, List.splitOn_append_cons_self_of_not_mem (hds d List.mem_cons_self),
      ih fun e he => hds e (List.mem_cons_of_mem _ he)]
    rfl

theorem components_path (p : Parts) : components p.path =
    p.dirs.filter (· ≠ []) ++ if p.last = [] then [] else [p.last] := by
  have hsplit : p.path.splitOn slash = [] :: (p.dirs ++ [p.last]) := by
    rw [← splitOn_dirs p.dirs p.last p.dirs_free p.last_free]
    exact List.splitOn_append_cons_self [] _
  unfold components
  rw [hsplit, List.filter_cons_of_neg (by simp), List.filter_append]
  by_cases hl : p.last = [] <;> simp [hl]

theorem dirPath_getLast (ds : List Name) : (dirPath ds).getLast? = some slash := by
  induction ds with
  | nil => rfl
  | cons d ds ih =>
    have hpath : dirPath (d :: ds) = (slash :: d) ++ dirPath ds := by simp [dirPath]
    rw [hpath, List.getLast?_append, ih]
    rfl

theorem path_getLast (p : Parts) : p.path.getLast? = some slash ↔ p.last = [] := by
  unfold path
  rw [List.getLast?_append, dirPath_getLast]
  by_cases hl : p.last = []
  · simp [hl]
  · rw [List.getLast?_eq_some_getLast hl]
    refine iff_of_false (fun h => ?_) hl
    exact p.last_free (Option.some.inj h ▸ List.getLast_mem hl)

theorem dirComponents_path (p : Parts) : dirComponents p.path = p.dirs.filter (· ≠ []) := by
  unfold dirComponents
  by_cases hl : p.last = []
  · rw [if_pos (p.path_getLast.mpr hl), components_path, if_pos hl, List.append_nil]
  · rw [if_neg (mt p.path_getLast.mp hl), components_path, if_neg hl, List.dropLast_concat]

theorem isChain_free {d : Name} (hd : slash ∉ d) (a : Byte) : (a :: d).IsChain Apart := by
  induction d generalizing a with
  | nil => exact List.isChain_singleton a
  | cons b d ih =>
    rw [List.mem_cons, not_or] at hd
    exact List.isChain_cons_cons.mpr ⟨fun h => hd.1 h.2.symm, ih hd.2 b⟩

theorem isChain_dir {d : Name} (hd : slash ∉ d) (a : Byte) :
    (a :: d ++ [slash]).IsChain Apart ↔ (d = [] → a ≠ slash) := by
  induction d generalizing a with
  | nil => simp [Apart]
  | cons b d ih =>
    rw [List.mem_cons, not_or] at hd
    refine List.isChain_cons_cons.trans ⟨fun _ h => absurd h (List.cons_ne_nil b d), fun _ => ?_⟩
    exact ⟨fun h => hd.1 h.2.symm, (ih hd.2 b).mpr fun _ h => hd.1 h.symm⟩

theorem single_path (p : Parts) : p.path.IsChain Apart ↔ ∀ d ∈ p.dirs, d ≠ [] := by
  obtain ⟨ds, last, hds, hlast⟩ := p
  unfold path
  simp only
  induction ds with
  | nil => simpa [dirPath] using isChain_free hlast slash
  | cons d ds ih =>
    have hpath : dirPath (d :: ds) ++ last = (slash :: d) ++ slash :: (ds.flatMap (· ++ [slash]) ++ last) := by
      simp [dirPath]
    have hrest := ih fun e he => hds e (List.mem_cons_of_mem _ he)
    rw [hpath, List.isChain_split, isChain_dir (hds d List.mem_cons_self), List.forall_mem_cons]
    refine and_congr ?_ hrest
    simp

end Parts

/-! ## Peeling -/

section Peel
variable {s : State} {ds : List Name} {q : Name}

theorem find?_reverse_range {p : Nat → Bool} {n k : Nat} (hk : k < n) (hp : p k = true)
    (hall : ∀ j, k < j → j < n → p j = false) : (List.range n).reverse.find? p = some k := by
  induction n with
  | zero => exact absurd hk (Nat.not_lt_zero k)
  | succ n ih =>
    rw [List.range_succ, List.reverse_append, List.reverse_singleton, List.singleton_append]
    by_cases hn : k = n
    · rw [List.find?_cons_of_pos (hn ▸ hp), hn]
    · rw [List.find?_cons_of_neg (by rw [hall n (by omega) (by omega)]; decide)]
      exact ih (by omega) fun j h1 h2 => hall j h1 (by omega)

/-- The slash before a piece is the last one that counts. -/
theorem lastSlash_append {a : Name} (hq : q ≠ []) (hfree : slash ∉ q.dropLast) :
    lastSlash (a ++ slash :: q) = some a.length := by
  have hlen : 0 < q.length := List.length_pos_of_ne_nil hq
  unfold lastSlash
  refine find?_reverse_range ?_ ?_ fun j h1 h2 => ?_
  · simp only [List.length_append, List.length_cons]
    omega
  · simp
  · simp only [List.length_append, List.length_cons] at h2
    have hj : j - a.length - 1 < q.dropLast.length := by
      rw [List.length_dropLast]
      omega
    have hget : (a ++ slash :: q).getD j 0 = q.dropLast[j - a.length - 1] := by
      obtain ⟨i, rfl⟩ : ∃ i, j = a.length + (i + 1) := ⟨j - a.length - 1, by omega⟩
      rw [List.getD_eq_getElem?_getD, List.getElem?_append_right (by omega)]
      simp only [Nat.add_sub_cancel_left, List.getElem?_cons_succ, List.getElem_dropLast]
      rw [List.getElem?_eq_getElem (by omega)]
      rfl
    rw [hget]
    exact beq_false_of_ne fun h => hfree (h ▸ List.getElem_mem hj)

theorem pathPeel_append {a : Name} (hq : q ≠ []) (hfree : slash ∉ q.dropLast) :
    pathPeel (a ++ slash :: q) s =
      if q.length < 16 then .ok ((a ++ [slash], q), s) else .error .fault := by
  have hroot : a ++ slash :: q ≠ [slash] := by
    intro h
    have hlen := congrArg List.length h
    have := List.length_pos_of_ne_nil hq
    simp only [List.length_append, List.length_cons, List.length_nil] at hlen
    omega
  have htake : (a ++ slash :: q).take (a.length + 1) = a ++ [slash] := by simp [List.take_append]
  have hdrop : (a ++ slash :: q).drop (a.length + 1) = q := by simp [List.drop_append]
  have hlen : (a ++ slash :: q).length - (a.length + 1) = q.length := by
    simp only [List.length_append, List.length_cons]
    omega
  unfold pathPeel
  rw [if_neg hroot, lastSlash_append hq hfree, bind_ok (need_some _ _ _), hlen, htake, hdrop]
  by_cases h : q.length < 16
  · rw [if_pos h, check_bind h]
    rfl
  · rw [if_neg h]
    refine bind_error ?_
    rw [check, if_neg h]
    rfl

theorem dirPath_concat (ds : List Name) (d : Name) : dirPath (ds ++ [d]) = dirPath ds ++ (d ++ [slash]) := by
  simp [dirPath]

/-- A path of directories ends with a slash, behind which a piece can follow. -/
theorem dirPath_split (ds : List Name) : ∃ a, dirPath ds = a ++ [slash] :=
  List.getLast?_eq_some_iff.mp (Parts.dirPath_getLast ds)

theorem pathPeel_dirPath (hq : q ≠ []) (hfree : slash ∉ q.dropLast) :
    pathPeel (dirPath ds ++ q) s =
      if q.length < 16 then .ok ((dirPath ds, q), s) else .error .fault := by
  obtain ⟨a, ha⟩ := dirPath_split ds
  rw [ha, List.append_assoc]
  exact pathPeel_append hq hfree

theorem dirPath_append_ne (hq : q ≠ []) : dirPath ds ++ q ≠ [slash] := by
  intro h
  have hlen := congrArg List.length h
  have := List.length_pos_of_ne_nil hq
  simp only [dirPath, List.length_append, List.length_cons, List.length_nil] at hlen
  omega

theorem peelNames_step (hq : q ≠ []) (hfree : slash ∉ q.dropLast) (n : Nat) :
    peelNames (n + 1) (dirPath ds ++ q) s = if q.length < 16
      then (peelNames n (dirPath ds) s).map fun r => (q :: r.1, r.2) else .error .fault := by
  rw [peelNames, if_neg (dirPath_append_ne hq)]
  by_cases h : q.length < 16
  · rw [if_pos h]
    refine (bind_ok ((pathPeel_dirPath hq hfree).trans (if_pos h))).trans ?_
    simp only [bind_apply]
    cases peelNames n (dirPath ds) s <;> rfl
  · rw [if_neg h]
    exact bind_error ((pathPeel_dirPath hq hfree).trans (if_neg h))

/-- The directories come off one by one, unless one is too long. -/
theorem peelNames_dirs (hds : ∀ d ∈ ds, slash ∉ d) {n : Nat} (hn : ds.length ≤ n) :
    peelNames n (dirPath ds) s = if ∀ d ∈ ds, d.length + 1 < 16
      then .ok ((ds.map (· ++ [slash])).reverse, s) else .error .fault := by
  induction ds using List.reverseRecOn generalizing n with
  | nil =>
    rw [if_pos (by simp)]
    cases n <;> rfl
  | append_singleton ds d ih =>
    rw [List.length_append, List.length_singleton] at hn
    obtain ⟨m, rfl⟩ : ∃ m, n = m + 1 := ⟨n - 1, by omega⟩
    have hd : slash ∉ (d ++ [slash]).dropLast := by
      rw [List.dropLast_concat]
      exact hds d (by simp)
    have hlen : (d ++ [slash]).length = d.length + 1 := List.length_append
    rw [dirPath_concat, peelNames_step (by simp) hd, hlen,
      ih (fun e he => hds e (List.mem_append_left _ he)) (by omega)]
    have hall : (∀ e ∈ ds ++ [d], e.length + 1 < 16) ↔
        (∀ e ∈ ds, e.length + 1 < 16) ∧ d.length + 1 < 16 := by
      simp [or_imp, forall_and]
    by_cases h : d.length + 1 < 16
    · by_cases hrest : ∀ e ∈ ds, e.length + 1 < 16
      · rw [if_pos h, if_pos hrest, if_pos (hall.mpr ⟨hrest, h⟩), List.map_append, List.reverse_append]
        rfl
      · rw [if_pos h, if_neg hrest, if_neg fun ha => hrest (hall.mp ha).1]
        rfl
    · rw [if_neg h, if_neg fun ha => h (hall.mp ha).2]

end Peel

namespace Parts

variable {s : State}

/-- Each piece fits into the buffer. -/
abbrev Short (p : Parts) : Prop := (∀ d ∈ p.dirs, d.length + 1 < 16) ∧ p.last.length < 16

theorem length_dirPath (ds : List Name) : ds.length < (dirPath ds).length := by
  induction ds with
  | nil => decide
  | cons d ds ih =>
    have hpath : dirPath (d :: ds) = slash :: d ++ dirPath ds := by simp [dirPath]
    rw [hpath, List.length_append, List.length_cons, List.length_cons]
    omega

/-- With enough steps all pieces come off, if all are short. -/
theorem peelNames_path (p : Parts) {n : Nat} (hn : p.path.length ≤ n) :
    peelNames n p.path s = if p.Short then .ok (p.pieces.reverse, s) else .error .fault := by
  have hdirs := length_dirPath p.dirs
  unfold path at hn ⊢
  rw [List.length_append] at hn
  unfold pieces
  by_cases hl : p.last = []
  · have hroot : dirPath p.dirs ++ p.last = dirPath p.dirs := by rw [hl, List.append_nil]
    rw [if_pos hl, List.append_nil, hroot, peelNames_dirs p.dirs_free (n := n) (by omega)]
    exact if_congr (and_iff_left (by rw [hl]; decide)).symm rfl rfl
  · obtain ⟨m, rfl⟩ : ∃ m, n = m + 1 := ⟨n - 1, by omega⟩
    have hlast := List.length_pos_of_ne_nil hl
    rw [peelNames_step hl fun h => p.last_free (List.mem_of_mem_dropLast h),
      peelNames_dirs p.dirs_free (by omega), if_neg hl]
    by_cases h : p.last.length < 16
    · by_cases hrest : ∀ d ∈ p.dirs, d.length + 1 < 16
      · rw [if_pos h, if_pos hrest, if_pos ⟨hrest, h⟩, List.reverse_append]
        rfl
      · rw [if_pos h, if_neg hrest, if_neg fun ha => hrest ha.1]
        rfl
    · rw [if_neg h, if_neg fun ha => h ha.2]

theorem dirNames (p : Parts) :
    p.pieces.reverse.filter isDirName = p.dirs.reverse.map (· ++ [slash]) := by
  have hdirs : (p.dirs.map (· ++ [slash])).filter isDirName = p.dirs.map (· ++ [slash]) := by
    refine List.filter_eq_self.mpr fun q hq => ?_
    obtain ⟨d, -, rfl⟩ := List.mem_map.mp hq
    simp [isDirName]
  have hlast : (if p.last = [] then [] else [p.last] : List Name).filter isDirName = [] := by
    by_cases hl : p.last = []
    · rw [if_pos hl]
      rfl
    · rw [if_neg hl, List.filter_eq_nil_iff]
      intro q hq hdir
      rw [List.mem_singleton.mp hq, isDirName, beq_iff_eq, List.getLast?_eq_some_getLast hl] at hdir
      exact p.last_free (Option.some.inj hdir ▸ List.getLast_mem hl)
  unfold pieces
  rw [List.filter_reverse, List.filter_append, hdirs, hlast, List.append_nil, List.map_reverse]

theorem pathPeel_path (p : Parts) (hs : p.Short) :
    ∃ parent last, pathPeel p.path s = .ok ((parent, last), s) ∧ parent ++ last = p.path ∧
      last.length < 16 := by
  obtain ⟨ds, last, hds, hlast⟩ := p
  unfold path
  by_cases hl : last = []
  · subst hl
    rw [List.append_nil]
    cases ds using List.reverseRecOn with
    | nil => exact ⟨[slash], [], rfl, rfl, by decide⟩
    | append_singleton ds d =>
      have hd : d.length + 1 < 16 := hs.1 d (by simp)
      refine ⟨dirPath ds, d ++ [slash], ?_, (dirPath_concat ds d).symm, ?_⟩
      · rw [dirPath_concat, pathPeel_dirPath (by simp), if_pos]
        · rwa [List.length_append]
        · rw [List.dropLast_concat]
          exact hds d (by simp)
      · rwa [List.length_append]
  · refine ⟨dirPath ds, last, ?_, rfl, hs.2⟩
    rw [pathPeel_dirPath hl fun h => hlast (List.mem_of_mem_dropLast h), if_pos hs.2]

end Parts

/-! ## The copy -/

section Copy
variable {s : State} {path : Name}

/-- What a copy of the path reads as, with `rest` behind a block that is full. -/
def copyOf (path rest : Name) : Name :=
  if hasTerminator path.length then path else path ++ rest.takeWhile (· ≠ 0)

theorem copyPath_run (hp : path ≠ []) (hm : s.env.malloc 0 = true) :
    ∃ t, copyPath path s = .ok (some (copyOf path (s.env.tail 0)), t) := by
  have hlen : path.length ≠ 0 := fun h => hp (List.length_eq_zero_iff.mp h)
  unfold copyPath copyOf
  rw [bind_ok (sysMalloc_ok hlen), if_pos hm]
  by_cases ht : hasTerminator path.length = true
  · rw [if_pos ht, if_pos ht]
    exact ⟨_, rfl⟩
  · rw [if_neg ht, if_neg ht]
    exact ⟨_, rfl⟩

theorem copyPath_full (hp : path ≠ []) (hm : s.env.malloc 0 = false) :
    ∃ t, copyPath path s = .ok (none, t) := by
  have hlen : path.length ≠ 0 := fun h => hp (List.length_eq_zero_iff.mp h)
  unfold copyPath
  rw [bind_ok (sysMalloc_ok hlen), hm]
  exact ⟨_, rfl⟩

/-- Nobody looks whether there was memory for the copy. -/
theorem pathDepth_full (hp : path ≠ []) (hm : s.env.malloc 0 = false) :
    pathDepth path s = .error .fault := by
  obtain ⟨t, ht⟩ := copyPath_full hp hm
  have hcopy : mustCopyPath path s = .error .fault := by
    unfold mustCopyPath
    rw [bind_ok ht]
    rfl
  unfold pathDepth
  rw [if_neg hp]
  exact bind_error hcopy

theorem pathDepth_run {p : Parts} (hp : path ≠ []) (hm : s.env.malloc 0 = true)
    (hcopy : p.path = copyOf path (s.env.tail 0)) : ∃ t, pathDepth path s =
      if p.Short then .ok (max p.pieces.length 1, t) else .error .fault := by
  obtain ⟨t, ht⟩ := copyPath_run hp hm
  have hmust : mustCopyPath path s = .ok (copyOf path (s.env.tail 0), t) := by
    unfold mustCopyPath
    rw [bind_ok ht]
    rfl
  refine ⟨t, ?_⟩
  unfold pathDepth
  rw [if_neg hp, bind_ok hmust, ← hcopy, bind_apply, p.peelNames_path (Nat.le_refl _)]
  by_cases hs : p.Short
  · rw [if_pos hs, if_pos hs, ← p.pieces.length_reverse]
    rfl
  · rw [if_neg hs, if_neg hs]

theorem pathDirs_run {p : Parts} (hp : path ≠ []) (hm : s.env.malloc 0 = true)
    (hcopy : p.path = copyOf path (s.env.tail 0)) (hs : p.Short) {n : Nat} (hn : p.dirs.length ≤ n) :
    ∃ t, pathDirs path n s = .ok (some (p.dirs.reverse.map (· ++ [slash])), t) := by
  obtain ⟨t, ht⟩ := copyPath_run hp hm
  refine ⟨t, ?_⟩
  unfold pathDirs
  refine (bind_ok ht).trans ?_
  rw [← hcopy]
  refine (bind_ok ((p.peelNames_path (Nat.le_refl _)).trans (if_pos hs))).trans ?_
  rw [p.dirNames]
  refine (check_bind ?_ _ _).trans rfl
  rwa [List.length_map, List.length_reverse]

end Copy

/-! ## The parts and the names -/

namespace Parts

theorem length_pieces (p : Parts) :
    p.pieces.length = p.dirs.length + if p.last = [] then 0 else 1 := by
  unfold pieces
  by_cases hl : p.last = [] <;> simp [hl]

theorem length_components (p : Parts) : (components p.path).length =
    (p.dirs.filter (· ≠ [])).length + if p.last = [] then 0 else 1 := by
  rw [components_path]
  by_cases hl : p.last = [] <;> simp [hl]

theorem count_path (p : Parts) : p.path.count slash = p.dirs.length + 1 := by
  have hdirs : ∀ ds : List Name, (∀ d ∈ ds, slash ∉ d) → (dirPath ds).count slash = ds.length + 1 := by
    intro ds hds
    induction ds with
    | nil => rfl
    | cons d ds ih =>
      have hpath : dirPath (d :: ds) = slash :: d ++ dirPath ds := by simp [dirPath]
      rw [hpath, List.count_append, ih fun e he => hds e (List.mem_cons_of_mem _ he),
        List.count_cons_self, List.count_eq_zero_of_not_mem (hds d List.mem_cons_self),
        List.length_cons]
      omega
  unfold path
  rw [List.count_append, hdirs _ p.dirs_free, List.count_eq_zero_of_not_mem p.last_free]

theorem fits_of_short {p : Parts} (hs : p.Short) : Fits p.path := by
  constructor
  · intro c hc
    rw [components_path, List.mem_append] at hc
    rcases hc with hc | hc
    · exact Nat.lt_of_succ_lt (hs.1 c (List.mem_of_mem_filter hc))
    · split_ifs at hc with hl
      · cases hc
      · rw [List.mem_singleton.mp hc]
        exact hs.2
  · intro c hc
    rw [dirComponents_path] at hc
    exact hs.1 c (List.mem_of_mem_filter hc)

theorem filter_dirs {p : Parts} (hd : ∀ d ∈ p.dirs, d ≠ []) : p.dirs.filter (· ≠ []) = p.dirs :=
  List.filter_eq_self.mpr fun d hm => decide_eq_true (hd d hm)

theorem short_of_fits {p : Parts} (hd : ∀ d ∈ p.dirs, d ≠ []) (h : Fits p.path) : p.Short := by
  obtain ⟨hnames, hdirs⟩ := h
  rw [dirComponents_path, filter_dirs hd] at hdirs
  rw [components_path] at hnames
  refine ⟨hdirs, ?_⟩
  by_cases hl : p.last = []
  · rw [hl]
    decide
  · exact hnames p.last (List.mem_append_right _ (by rw [if_neg hl]; exact List.mem_singleton_self _))

/-- The path is the root itself if and only if it has no pieces. -/
theorem pieces_eq_nil (p : Parts) : p.pieces.length = 0 ↔ p.path = [slash] := by
  rw [length_pieces]
  obtain ⟨ds, last, hds, hlast⟩ := p
  unfold path
  cases ds <;> by_cases hl : last = [] <;> simp [dirPath, hl]

end Parts

/-! ## When a split is exact -/

section Exact
variable {s : State} {path rest : Name}

theorem copyOf_spare (h : hasTerminator path.length = true) (rest : Name) : copyOf path rest = path :=
  if_pos h

theorem copyOf_nil (path : Name) : copyOf path [] = path := by
  unfold copyOf
  split
  · rfl
  · exact List.append_nil path

theorem Plain.splits (hm : s.env.malloc 0 = true) (h : Plain (slash :: rest)) :
    SplitsExactly s (slash :: rest) := by
  obtain ⟨p, hp⟩ := Parts.of_absolute rest
  rw [← hp] at h ⊢
  have hne : p.path ≠ [] := by rw [hp]; exact List.cons_ne_nil _ _
  have hdirs := p.single_path.mp h.single
  have hs := Parts.short_of_fits hdirs h.fits
  have hnames : (components p.path).length = p.pieces.length := by
    rw [p.length_components, p.length_pieces, Parts.filter_dirs hdirs]
  have hpos : p.pieces.length ≠ 0 := mt p.pieces_eq_nil.mp h.below
  intro tail
  have hcopy : p.path = copyOf p.path ((s.withTail tail).env.tail 0) := (copyOf_spare h.spare _).symm
  obtain ⟨t, hdepth⟩ := pathDepth_run (s := s.withTail tail) hne hm hcopy
  obtain ⟨t', hrun⟩ := pathDirs_run (s := s.withTail tail) hne hm hcopy hs (n := (components p.path).length)
    (by rw [hnames, p.length_pieces]; omega)
  rw [if_pos hs, show max p.pieces.length 1 = (components p.path).length by omega] at hdepth
  obtain ⟨parent, last, hpeel⟩ := p.pathPeel_path (s := s.withTail tail) hs
  refine ⟨⟨?_, ?_, ?_⟩, fun _ => ⟨⟨parent, last, hpeel⟩, ⟨t, hdepth⟩, ⟨t', ?_⟩⟩,
    fun hf => absurd h.fits hf⟩
  · rw [hpeel.1]
    exact fun h => nomatch h
  · rw [hdepth]
    exact fun h => nomatch h
  · rw [hrun]
    exact fun h => nomatch h
  · rw [hrun, p.dirComponents_path, Parts.filter_dirs hdirs]

/-- The depth that a run with this memory behind the copy returns. -/
theorem SplitsExactly.depth_eq {p : Parts} (h : SplitsExactly s path) (hne : path ≠ [])
    (hm : s.env.malloc 0 = true) (hcopy : p.path = copyOf path rest) :
    p.Short ∧ (Fits path → max p.pieces.length 1 = (components path).length) := by
  obtain ⟨hsafe, hright, -⟩ := h rest
  obtain ⟨t, hdepth⟩ := pathDepth_run (s := s.withTail rest) hne hm hcopy
  by_cases hs : p.Short
  · rw [if_pos hs] at hdepth
    refine ⟨hs, fun hf => ?_⟩
    obtain ⟨t', hdepth'⟩ := (hright hf).depth
    rw [hdepth] at hdepth'
    exact congrArg Prod.fst (Except.ok.inj hdepth')
  · rw [if_neg hs] at hdepth
    exact absurd hdepth hsafe.depth

/-- A split of an absolute path is exact if and only if there is memory for the copy and the path
is plain. -/
theorem splitsExactly_iff (s : State) (rest : Name) :
    SplitsExactly s (slash :: rest) ↔ s.env.malloc 0 = true ∧ Plain (slash :: rest) := by
  refine ⟨fun h => ?_, fun h => h.2.splits h.1⟩
  have hne : slash :: rest ≠ [] := List.cons_ne_nil slash rest
  have hm : s.env.malloc 0 = true := by
    by_contra hm
    exact (h []).1.depth (pathDepth_full (s := s.withTail []) hne (Bool.not_eq_true _ ▸ hm))
  refine ⟨hm, ?_⟩
  obtain ⟨p, hp⟩ := Parts.of_absolute rest
  obtain ⟨hs, hdepth⟩ := h.depth_eq hne hm (hp.trans (copyOf_nil _).symm)
  have hfits : Fits (slash :: rest) := hp ▸ Parts.fits_of_short hs
  have hn := hdepth hfits
  have hle : (p.dirs.filter (· ≠ [])).length ≤ p.dirs.length := List.length_filter_le _ _
  refine ⟨fun hroot => ?_, ?_, hfits, ?_⟩
  · have hzero := p.pieces_eq_nil.mpr (hp.trans hroot)
    rw [hzero, hroot] at hn
    exact absurd hn (by decide)
  · have hall : (p.dirs.filter (· ≠ [])).length = p.dirs.length := by
      have hlen := p.length_pieces
      rw [← hp, p.length_components] at hn
      omega
    rw [← hp, p.single_path]
    exact fun d hd => of_decide_eq_true (List.length_filter_eq_length_iff.mp hall d hd)
  · by_contra hspare
    have hfull : copyOf (slash :: rest) [slash, slash] = slash :: (rest ++ [slash, slash]) :=
      if_neg hspare
    obtain ⟨q, hq⟩ := Parts.of_absolute (rest ++ [slash, slash])
    have hn' := (h.depth_eq hne hm (hq.trans hfull.symm)).2 hfits
    have hmore : (slash :: (rest ++ [slash, slash])).count slash = (slash :: rest).count slash + 2 := by
      rw [← List.cons_append, List.count_append]
      rfl
    rw [← hq, ← hp, q.count_path, p.count_path] at hmore
    have hlen := p.length_pieces
    have hlen' := q.length_pieces
    split_ifs at hlen hlen' <;> omega

end Exact

/-- A name of sixteen letters. -/
def longPath : Name := slash :: List.replicate 16 97#8

/-- Two names that fill a block of sixteen bytes. -/
def fullPath : Name := slash :: List.replicate 7 97#8 ++ slash :: List.replicate 7 98#8

/-- The long name is copied over the end of the buffer, the full path runs on into what lies behind
its copy, a doubled slash counts as a name, and so does the root. -/
theorem split_overruns : ¬ SplitsExactly State.boot longPath ∧
    pathPeel longPath State.boot = .error .fault ∧
    (pathDepth fullPath (State.boot.withTail [slash, 99#8])).map Prod.fst = .ok 3 ∧
    (components fullPath).length = 2 ∧
    (pathDepth [slash, 97#8, slash, slash, 98#8] State.boot).map Prod.fst = .ok 3 ∧
    (components [slash, 97#8, slash, slash, 98#8]).length = 2 ∧
    (pathDepth [slash] State.boot).map Prod.fst = .ok 1 ∧ (components [slash]).length = 0 := by
  have hfault : ∀ rest, pathPeel longPath (State.boot.withTail rest) = .error .fault := fun rest => by
    have hlong : longPath = [] ++ slash :: List.replicate 16 97#8 := rfl
    rw [hlong, pathPeel_append (by decide) (by decide), if_neg (by decide)]
  refine ⟨fun h => (h []).1.peel (hfault []), hfault (State.boot.env.tail 0), ?_⟩
  decide +kernel

end Frog.Fs
