import Frog.Fs.OpenWalk

/-!
# What a failed `sys_open` leaves

Every call that opens a file takes a slot of the file table, and none but `roll_back` gives it back.
Only where no slot was taken, or a creation found no room and the slot was blank before, is the
state after a failure the state before it.
-/

namespace Frog.Fs

set_option autoImplicit false
open Bytes Prog

/-! ## What should stay as it is -/

/-- Both tables, both bitmaps in memory and on the disk with the inode table, every directory, and
the open inodes with their locks and counts. -/
structure Unopened (s t : State) : Prop where
  fileTable : t.fileTable = s.fileTable
  fdTable : t.fdTable = s.fdTable
  zoneBitmap : t.zoneBitmap = s.zoneBitmap
  inodeBitmap : t.inodeBitmap = s.inodeBitmap
  front : ∀ lba, lba < s.sb.sDataStartLba → sectorAt t.disk lba = sectorAt s.disk lba
  entries : ∀ x, HoldsZones s x → ∀ k i, liveAt t.disk x k i = liveAt s.disk x k i
  openInodes : t.openInodes = s.openInodes
  inodes : ∀ p ∈ s.openInodes, t.inodes p = s.inodes p

section Change
variable {s t u : State}

theorem SameOld.unopened (hf : s.Fresh) (h : SameOld s t) : Unopened s t where
  fileTable := h.part State.fileTable
  fdTable := h.part State.fdTable
  zoneBitmap := h.part State.zoneBitmap
  inodeBitmap := h.part State.inodeBitmap
  front lba _ := by rw [show t.disk = s.disk from h.part State.disk]
  entries x _ k i := by rw [show t.disk = s.disk from h.part State.disk]
  openInodes := h.part State.openInodes
  inodes p hp := h.inodes p (hf.openInodes p hp)

theorem Spoilt.not_unopened (h : Spoilt s t) : ¬ Unopened s t := by
  intro hu
  obtain ⟨-, p, hp, x, hx, hlost⟩ := h
  exact lt_irrefl _ (hlost x ((hu.inodes p hp).trans hx))

/-- A slot or a zone is taken. -/
def Marked (s t : State) : Prop := t.fileTable ≠ s.fileTable ∨ t.zoneBitmap ≠ s.zoneBitmap

theorem Marked.not_unopened (h : Marked s t) : ¬ Unopened s t := by
  intro hu
  rcases h with hfile | hzone
  · exact hfile hu.fileTable
  · exact hzone hu.zoneBitmap

/-- Where `C` holds nothing old has changed, else a slot or a zone is taken. -/
abbrev Ends (C : Prop) (s t : State) : Prop := (C ∧ SameOld s t) ∨ (¬ C ∧ Marked s t)

end Change

/-! ## Creating a file -/

section Create
variable {s t v w : State} {d q : Nat} {x : Inode} {name : Name} {r : Option Nat}

def firstSlot (s : State) : Option Nat :=
  (List.range maxFileOpen).find? fun g => (s.fileTable g).fdInode.isNone

theorem firstSlot_free {g : Nat} (h : firstSlot s = some g) : (s.fileTable g).fdInode = none := by
  have := List.find?_some h
  exact Option.isNone_iff_eq_none.mp this

theorem firstSlot_none : firstSlot s = none ↔ ¬ FreeSlot s := by
  unfold firstSlot FreeSlot
  rw [List.find?_eq_none]
  simp only [List.mem_range, Option.isNone_iff_eq_none, not_exists, not_and]

/-- The state in which a slot is looked for. -/
def State.creating (s : State) (i : Nat) (x : Inode) : State :=
  { s.putInode s.next (some x) with
    inodeBitmap := s.inodeBitmap.setValue i true
    env := s.nextMalloc.nextMalloc.env
    next := s.next + 1
    gFtLock := s.gFtLock + 1 }

theorem setBit_inode_ok {i : Nat} {b : Bool} {a : Unit}
    (h : setBit .inodeBitmap i b s = .ok (a, t)) :
    t = s.setInodeMap (s.inodeBitmap.setValue i b) := by
  unfold setBit at h
  rw [bind_ok (get_apply s)] at h
  obtain ⟨_, s₁, hcheck, hset⟩ := bind_eq_ok.mp h
  obtain ⟨-, rfl⟩ := check_eq_ok.mp hcheck
  cases hset
  rfl

/-- There is memory, a number and a slot. -/
theorem createWith_ends {x : Nat → Inode} {ft : FileType}
    {tail : Nat → Nat → DirEntry → Nat → M (Option Nat)}
    (h : createWith x ft name tail s = .ok (r, t)) :
    (r = none ∧ SameOld s t ∧ ¬ (ReachesSlot s ∧ FreeSlot s)) ∨
      (ReachesSlot s ∧ ∃ i g e, s.inodeBitmap.findBlock 1 = some i ∧ firstSlot s = some g ∧
        tail s.next i e g (s.creating i (x i)) = .ok (r, t)) := by
  unfold createWith at h
  rw [bind_ok (sysMalloc_ok (by decide))] at h
  by_cases h0 : s.env.malloc 0 = true
  · rw [h0, if_neg (by decide)] at h
    cases hi : s.inodeBitmap.findBlock 1 with
    | none =>
      rw [bind_ok (inodeBitmapAlloc_none (s := s.nextMalloc) hi)] at h
      cases h
      refine .inl ⟨rfl, ⟨rfl, fun _ _ => rfl, fun _ _ => rfl, le_rfl⟩, fun hr => ?_⟩
      obtain ⟨i, hsome⟩ := hr.1.2.1
      cases hi.symm.trans hsome
    | some i =>
      rw [bind_ok (inodeBitmapAlloc_some (s := s.nextMalloc) hi)] at h
      simp only at h
      rw [bind_ok (sysMalloc_ok (by decide))] at h
      have hundo : (s.inodeBitmap.setValue i true).setValue i false = s.inodeBitmap :=
        Bitmap.setValue_undo (Bitmap.findBlock_one hi).2.1
      by_cases h1 : s.env.malloc 1 = true
      · rw [show (s.nextMalloc.setInodeMap _).env.malloc 0 = true from h1, if_neg (by decide)] at h
        obtain ⟨p, s₁, hp, h⟩ := bind_eq_ok.mp h
        cases hp
        obtain ⟨e, s₂, he, h⟩ := bind_eq_ok.mp h
        obtain ⟨_, s₃, hcheck, he⟩ := bind_eq_ok.mp he
        cases (check_eq_ok.mp hcheck).2
        cases he
        obtain ⟨_, s₄, hlock, h⟩ := bind_eq_ok.mp h
        cases hlock
        have hslot : occupyFileTableSlot (s.creating i (x i)) =
          .ok (firstSlot s, s.creating i (x i)) := rfl
        replace h := (bind_ok hslot).symm.trans h
        have hreach : ReachesSlot s := ⟨h0, ⟨i, hi⟩, h1⟩
        cases hg : firstSlot s with
        | some g =>
          rw [hg] at h
          exact .inr ⟨hreach, i, g, _, rfl, rfl, h⟩
        | none =>
          rw [hg] at h
          obtain ⟨_, s₅, hfree, h⟩ := bind_eq_ok.mp h
          cases hfree
          obtain ⟨_, s₆, hset, hpure⟩ := bind_eq_ok.mp h
          cases hpure
          refine .inl ⟨rfl, ?_, fun hr => firstSlot_none.mp hg hr.2⟩
          rw [setBit_inode_ok hset]
          refine ⟨?_, fun p hp => ?_, fun _ _ => rfl, Nat.le_succ _⟩
          · simp only [State.sansObjects, State.sansEnv, State.creating, hundo]
          · show Function.update (Function.update s.inodes s.next _) s.next none p = s.inodes p
            rw [Function.update_of_ne (by omega), Function.update_of_ne (by omega)]
      · rw [show (s.nextMalloc.setInodeMap _).env.malloc 0 = false from Bool.eq_false_iff.mpr h1,
          if_pos (by decide)] at h
        obtain ⟨_, s₁, hset, hpure⟩ := bind_eq_ok.mp h
        cases hpure
        refine .inl ⟨rfl, ?_, fun hr => h1 hr.1.2.2⟩
        rw [setBit_inode_ok hset]
        refine ⟨?_, fun _ _ => rfl, fun _ _ => rfl, le_rfl⟩
        simp only [State.sansObjects, State.sansEnv, hundo]
  · rw [Bool.eq_false_iff.mpr h0, if_pos (by decide)] at h
    cases h
    exact .inl ⟨rfl, ⟨rfl, fun _ _ => rfl, fun _ _ => rfl, le_rfl⟩, fun hr => h0 hr.1.1⟩

/-- The state in which the entry is flushed, with the slot taken. -/
def State.begun (s : State) (i g : Nat) (f : File) (y : Inode) : State :=
  { s.creating i y with fileTable := Function.update s.fileTable g f, gFtLock := s.gFtLock }

/-- Every zone of a directory is there and holds no free entry. -/
def FullDir (disk : Store) (x : Inode) : Prop := ∀ k, k < 140 → FullZone disk (zoneOf disk x k)

def rollBack (g p i : Nat) : M (Option Nat) := do
  setFile g clearedFile
  freeInode p
  setBit .inodeBitmap i false
  pure none

theorem rollBack_ok {g p i : Nat} (h : rollBack g p i s = .ok (r, t)) :
    t = ((s.putFile g clearedFile).putInode p none).setInodeMap
      (s.inodeBitmap.setValue i false) := by
  obtain ⟨_, s₁, hfile, h⟩ := bind_eq_ok.mp h
  cases hfile
  obtain ⟨_, s₂, hfree, h⟩ := bind_eq_ok.mp h
  cases hfree
  obtain ⟨_, s₃, hset, hpure⟩ := bind_eq_ok.mp h
  cases hpure
  exact setBit_inode_ok hset

/-- A blank slot is as it was. -/
theorem keeps_rollBack {i g : Nat} {f : File} {y : Inode} (hi : s.inodeBitmap.findBlock 1 = some i)
    (hblank : s.fileTable g = clearedFile) (hw : OnlyEnv (s.begun i g f y) w)
    (h : rollBack g s.next i w = .ok (r, t)) : SameOld s t := by
  have hundo : (s.inodeBitmap.setValue i true).setValue i false = s.inodeBitmap :=
    Bitmap.setValue_undo (Bitmap.findBlock_one hi).2.1
  have htable : Function.update (Function.update s.fileTable g f) g clearedFile = s.fileTable := by
    rw [Function.update_idem, ← hblank, Function.update_eq_self]
  rw [rollBack_ok h, hw.eq]
  refine ⟨?_, fun p hp => ?_, fun _ _ => rfl, Nat.le_succ _⟩
  · simp only [State.sansObjects, State.sansEnv, State.begun, State.creating, hundo, htable]
  · show Function.update (Function.update s.inodes s.next _) s.next none p = s.inodes p
    rw [Function.update_of_ne (by omega), Function.update_of_ne (by omega)]

/-- The entry finds no room, and the slot was blank, or a slot or a zone stays taken. -/
theorem enter_ends {i g : Nat} {f : File} {y : Inode} {e : DirEntry} {k : M (Option Nat)}
    (hl : Layout s.sb) (hm : ZoneMapOk s) (hd : DirAt s d q x) (hq : q < s.next)
    (hz : HoldsZones s x) (hi : s.inodeBitmap.findBlock 1 = some i)
    (hfree : (s.fileTable g).fdInode = none) (hf : f.fdInode ≠ none)
    (hw : OnlyEnv (s.begun i g f y) w) (hk : Within SameSlots k)
    (hrun : (do
      if ← flushDirEntry d e then k
      else rollBack g s.next i) w = .ok (r, t)) :
    Ends (s.fileTable g = clearedFile ∧ FullDir s.disk x) s t := by
  obtain ⟨ok, w', hflush, h⟩ := bind_eq_ok.mp hrun
  have hdw : DirAt w d q x := by
    rw [hw.eq]
    refine ⟨hd.1, ?_⟩
    show Function.update s.inodes s.next (some y) q = some x
    rw [Function.update_of_ne (by omega), hd.2]
  have hzw : HoldsZones w x := by
    rw [hw.eq]
    exact ⟨⟨hz.used.zone, hz.used.table⟩, hz.data, hz.table⟩
  have hmw : ZoneMapOk w := by
    rw [hw.eq]
    exact ⟨hm.len, hm.pad⟩
  have hlw : Layout w.sb := by
    rw [hw.eq]
    exact hl
  have hdisk : w.disk = s.disk := by rw [hw.eq]; rfl
  have hzones : w.zoneBitmap = s.zoneBitmap := by rw [hw.eq]; rfl
  have htable : w.fileTable = Function.update s.fileTable g f := by rw [hw.eq]; rfl
  have hends := wp_ok ((wp_flushDirEntry_at hdw hzw.table_le).mpr
    (wp_flushZones_ends (hzw.flushOk hlw hmw hdw.2))) hflush
  rw [hdisk, hzones] at hends
  have htaken : (Function.update s.fileTable g f g).fdInode ≠ (s.fileTable g).fdInode := by
    rw [Function.update_self, hfree]
    exact hf
  cases ok with
  | true =>
    obtain ⟨j, -, hj, hroom⟩ := hends.1 rfl
    refine .inr ⟨fun hfull => hroom (hfull.2 j (by omega)), .inl fun heq => htaken ?_⟩
    have hslots : t.fileTable = w.fileTable := by
      have h₁ : w'.mountedTable = w.mountedTable := flushDirEntry_table d e _ _ _ hflush
      have h₂ : t.mountedTable = w'.mountedTable := hk _ _ _ h
      exact congrArg (fun v => v.2.2) (h₂.trans h₁)
    rw [← htable, ← hslots, heq]
  | false =>
    replace h : rollBack g s.next i w' = .ok (r, t) := h
    obtain ⟨-, ⟨hall, rfl⟩ | ⟨⟨j, -, hj, hmissing⟩, b, hclear, hset⟩⟩ := hends.2 rfl
    · have hfull : FullDir s.disk x := fun j hj => hall j (Nat.zero_le j) (by omega)
      by_cases hblank : s.fileTable g = clearedFile
      · exact .inl ⟨⟨hblank, hfull⟩, keeps_rollBack hi hblank hw h⟩
      · refine .inr ⟨fun hr => hblank hr.1, .inl fun heq => hblank ?_⟩
        rw [← heq, rollBack_ok h]
        exact Function.update_self ..
    · refine .inr ⟨fun hfull => (hfull.2 j (by omega)).1 hmissing, .inr fun heq => ?_⟩
      rw [rollBack_ok h] at heq
      replace heq : w'.zoneBitmap = s.zoneBitmap := heq
      rw [heq, hclear] at hset
      cases hset

theorem publishFile_ends {i g flag : Nat} {e : DirEntry} {y : Inode} (hl : Layout s.sb)
    (hm : ZoneMapOk s) (hd : DirAt s d q x) (hq : q < s.next) (hz : HoldsZones s x)
    (hi : s.inodeBitmap.findBlock 1 = some i) (hg : firstSlot s = some g)
    (h : publishFile d flag s.next i e g (s.creating i y) = .ok (r, t)) :
    Ends (s.fileTable g = clearedFile ∧ FullDir s.disk x) s t := by
  obtain ⟨_, s₁, hfile, h⟩ := bind_eq_ok.mp h
  cases hfile
  obtain ⟨_, s₂, hlock, h⟩ := bind_eq_ok.mp h
  cases hlock
  refine enter_ends hl hm hd hq hz hi (firstSlot_free hg) (Option.some_ne_none _)
    (f := { fdPos := 0, fdFlag := flag, fdInode := some s.next }) (y := y) rfl ?_ h
  refine (dirInode_table _).bind fun q => (inodeAt_table _).bind fun y => ?_
  refine (flushInode_table _).bind fun _ => (inodeAt_table _).bind fun x => ?_
  refine (flushInode_table _).bind fun _ => (flushBitmap_table _ _).bind fun _ => ?_
  exact (listAddOpen_table _).bind fun _ => installThreadFd_table _

/-- An entry of which the name is a prefix, as `search_dir_entry` goes through the zones. -/
def prefixFrom (disk : Store) (zones : Nat → Nat) (name : Name) : Nat → Nat → Option DirEntry
  | 0, _ => none
  | left + 1, i =>
    match searchPrefix name (sectors disk (zones i) 1) perSector 0 with
    | some e => some e
    | none => prefixFrom disk zones name left (i + 1)

def prefixIn (disk : Store) (x : Inode) (name : Name) : Option DirEntry :=
  prefixFrom disk (fun i => if i < 12 then directPrefix x i else 0) name 140 0

theorem searchPrefixZones_ok {zones : Nat → Nat} {left i : Nat} {found : Option DirEntry}
    (h : searchPrefixZones name zones left i s = .ok (found, t)) :
    found = prefixFrom s.disk zones name left i ∧ t = s := by
  induction left generalizing i with
  | zero =>
    cases h
    exact ⟨rfl, rfl⟩
  | succ left ih =>
    obtain ⟨buf, s₁, hread, h⟩ := bind_eq_ok.mp h
    obtain ⟨rfl, rfl⟩ := ideRead_ok hread
    unfold prefixFrom
    cases hs : searchPrefix name (sectors s₁.disk (zones i) 1) perSector 0 with
    | some e =>
      rw [hs] at h
      cases h
      exact ⟨rfl, rfl⟩
    | none =>
      rw [hs] at h
      exact ih h

theorem searchDirEntry_ok {found : Option DirEntry} (hd : DirAt s d q x)
    (h : searchDirEntry d name s = .ok (found, t)) :
    found = prefixIn s.disk x name ∧ OnlyEnv s t := by
  obtain ⟨ok, s₁, hm, hrest⟩ := bind_eq_ok.mp h
  have henv : OnlyEnv s s₁ := sysMalloc_env _ _ _ _ hm
  obtain ⟨_, s₂, hcheck, hdir⟩ := bind_eq_ok.mp hrest
  obtain ⟨-, rfl⟩ := check_eq_ok.mp hcheck
  have hd₁ := hd.of_env henv
  rw [bind_ok (dirInode_some hd₁.1), bind_ok (inodeAt_some hd₁.2)] at hdir
  obtain ⟨_, s₃, hm', hscan⟩ := bind_eq_ok.mp hdir
  have henv' : OnlyEnv s s₃ := IsTrans.trans _ _ _ henv (mustMalloc_env _ _ _ _ hm')
  obtain ⟨hfound, rfl⟩ := searchPrefixZones_ok hscan
  rw [henv'.files.disk] at hfound
  exact ⟨hfound, henv'⟩

theorem publishSpecial_ends {i g : Nat} {e : DirEntry} {y : Inode} (hl : Layout s.sb)
    (hm : ZoneMapOk s) (hd : DirAt s d q x) (hq : q < s.next) (hz : HoldsZones s x)
    (hi : s.inodeBitmap.findBlock 1 = some i) (hg : firstSlot s = some g)
    (h : publishSpecial d name s.next i e g (s.creating i y) = .ok (r, t)) :
    Ends (s.fileTable g = clearedFile ∧ FullDir s.disk x ∧ prefixIn s.disk x name = none)
      s t := by
  obtain ⟨f, s₀, hat, h⟩ := bind_eq_ok.mp h
  cases hat
  obtain ⟨_, s₁, hfile, h⟩ := bind_eq_ok.mp h
  cases hfile
  obtain ⟨_, s₂, hlock, h⟩ := bind_eq_ok.mp h
  cases hlock
  obtain ⟨found, w, hsearch, hrest⟩ := bind_eq_ok.mp h
  have hdb : DirAt
      (s.begun i g { s.fileTable g with fdPos := 0, fdInode := some s.next } y) d q x := by
    refine ⟨hd.1, ?_⟩
    show Function.update s.inodes s.next (some y) q = some x
    rw [Function.update_of_ne (by omega), hd.2]
  obtain ⟨hfound, henv⟩ := searchDirEntry_ok hdb hsearch
  replace hfound : found = prefixIn s.disk x name := hfound
  rw [← hfound]
  cases found with
  | some e' =>
    cases hrest
    refine .inr ⟨fun hr => Option.some_ne_none e' hr.2.2, .inl fun heq => ?_⟩
    replace heq : w.fileTable = s.fileTable := heq
    have hg' := firstSlot_free hg
    rw [← heq, henv.eq] at hg'
    replace hg' : (Function.update s.fileTable g
      { s.fileTable g with fdPos := 0, fdInode := some s.next } g).fdInode = none := hg'
    rw [Function.update_self] at hg'
    cases hg'
  | none =>
    simp only [and_true]
    exact enter_ends hl hm hd hq hz hi (firstSlot_free hg) (Option.some_ne_none _) henv
      ((listAddOpen_table _).bind fun _ => within_pure _) hrest

/-- If there is memory for a block and an inode, from the `k`th allocation on, and a number, then no
slot is free, or the first one is blank and the directory full. -/
def CreateClean (s : State) (e : Env) (k : Nat) (y : Inode) (C : Prop) : Prop :=
  e.malloc k = true → (∃ i, s.inodeBitmap.findBlock 1 = some i) → e.malloc (k + 1) = true →
    ∀ g, firstSlot s = some g → s.fileTable g = clearedFile ∧ FullDir s.disk y ∧ C

theorem createWith_clean {y : Nat → Inode} {ft : FileType} {C : Prop}
    {tail : Nat → Nat → DirEntry → Nat → M (Option Nat)}
    (ht : ∀ i g e, s.inodeBitmap.findBlock 1 = some i → firstSlot s = some g →
      tail s.next i e g (s.creating i (y i)) = .ok (r, t) →
        Ends (s.fileTable g = clearedFile ∧ FullDir s.disk x ∧ C) s t)
    (h : createWith y ft name tail s = .ok (r, t)) :
    Ends (CreateClean s s.env 0 x C) s t := by
  rcases createWith_ends h with ⟨-, hkeeps, hnot⟩ | ⟨hreach, i, g, e, hi, hg, hrun⟩
  · refine .inl ⟨fun h0 hi h1 g hg => absurd ⟨⟨h0, hi, h1⟩, ?_⟩ hnot, hkeeps⟩
    by_contra hnone
    cases hg.symm.trans (firstSlot_none.mpr hnone)
  · have hiff : CreateClean s s.env 0 x C ↔
        (s.fileTable g = clearedFile ∧ FullDir s.disk x ∧ C) := by
      refine ⟨fun hc => hc hreach.1 hreach.2.1 hreach.2.2 g hg, fun hc _ _ _ g' hg' => ?_⟩
      cases hg.symm.trans hg'
      exact hc
    rw [hiff]
    exact ht i g e hi hg hrun

theorem fileCreate_clean {flag : Nat} (hl : Layout s.sb) (hm : ZoneMapOk s) (hd : DirAt s d q x)
    (hq : q < s.next) (hz : HoldsZones s x) (h : fileCreate d name flag s = .ok (r, t)) :
    Ends (CreateClean s s.env 0 x True) s t := by
  rw [fileCreate_eq] at h
  refine createWith_clean (fun i g e hi hg hrun => ?_) h
  simp only [and_true]
  exact publishFile_ends hl hm hd hq hz hi hg hrun

theorem packagefsCreate_clean {target : Nat} (hl : Layout s.sb) (hm : ZoneMapOk s)
    (hd : DirAt s d q x) (hq : q < s.next) (hz : HoldsZones s x)
    (h : packagefsCreate d name target s = .ok (r, t)) :
    Ends (CreateClean s s.env 0 x (prefixIn s.disk x name = none)) s t := by
  rw [packagefsCreate_eq] at h
  exact createWith_clean (fun i g e hi hg hrun => publishSpecial_ends hl hm hd hq hz hi hg hrun) h

theorem installThreadFd_none {g : Option Nat} (h : installThreadFd g s = .ok (none, t)) :
    t = s := by
  unfold installThreadFd at h
  rw [bind_ok (get_apply s)] at h
  cases hf : (List.range maxFilesOpenPerProc).find? fun fd => 3 ≤ fd ∧ s.fdTable fd = none with
  | none =>
    rw [hf] at h
    cases h
    rfl
  | some fd =>
    rw [hf] at h
    cases h

/-- A server is made first, of two blocks. -/
theorem openPkgServer_clean (hl : Layout s.sb) (hm : ZoneMapOk s) (hd : DirAt s d q x)
    (hq : q < s.next) (hz : HoldsZones s x) (h : openPkgServer d name s = .ok (none, t)) :
    Ends (CreateClean s s.env 2 x (prefixIn s.disk x name = none)) s t := by
  obtain ⟨target, s₁, hserver, hrest⟩ := bind_eq_ok.mp h
  obtain ⟨_, s₂, hm₁, hserver⟩ := bind_eq_ok.mp hserver
  obtain ⟨_, s₃, hm₂, hserver⟩ := bind_eq_ok.mp hserver
  cases mustMalloc_ok hm₁
  cases mustMalloc_ok hm₂
  cases hserver
  obtain ⟨g, s₄, hcreate, hinstall⟩ := bind_eq_ok.mp hrest
  obtain rfl := installThreadFd_none hinstall
  have henv : OnlyEnv s s.nextMalloc.nextMalloc.nextJunk := rfl
  rcases packagefsCreate_clean (s := s.nextMalloc.nextMalloc.nextJunk) hl ⟨hm.len, hm.pad⟩ hd hq
    (hz.of_env henv) hcreate with ⟨hclean, hkeeps⟩ | ⟨hclean, hmarked⟩
  · exact .inl ⟨hclean, henv.keeps.trans hkeeps⟩
  · exact .inr ⟨hclean, hmarked⟩

end Create

/-! ## Opening what is there -/

section Existing
variable {s t : State} {nr flags : Nat} {r : Option Nat}

/-- A slot is filled. -/
def Fills (g : Nat) (s t : State) : Prop :=
  ∃ f : File, f.fdInode ≠ none ∧ t.fileTable = Function.update s.fileTable g f

theorem fills_slot {g : Nat} {m : M Nat} {f : Nat → File} {k : Nat → M (Option Nat)}
    (hm : Within SameSlots m) (hf : ∀ p, (f p).fdInode ≠ none) (hk : ∀ p, Within SameSlots (k p)) :
    Within (Fills g) (do
      let p ← m
      setFile g (f p)
      lockRelease
      k p) := by
  have htable : ∀ {u v : State}, SameSlots u v → v.fileTable = u.fileTable := fun {u v} h =>
    congrArg (fun w => w.2.2) (show v.mountedTable = u.mountedTable from h)
  intro s r t h
  obtain ⟨p, s₁, hopen, h⟩ := bind_eq_ok.mp h
  obtain ⟨_, s₂, hfile, h⟩ := bind_eq_ok.mp h
  cases hfile
  obtain ⟨_, s₃, hlock, h⟩ := bind_eq_ok.mp h
  cases hlock
  refine ⟨f p, hf p, ?_⟩
  rw [htable (hk p _ _ _ h), ← htable (hm _ _ _ hopen)]

/-- How the calls end that open an inode that is in memory. -/
abbrev OpenEnds (s t : State) : Prop :=
  (¬ FreeSlot s ∧ SameOld s t) ∨ (FreeSlot s ∧ t.fileTable ≠ s.fileTable)

/-- The lock stays held without a slot, and a slot stays filled. -/
theorem underLock_ends {tail : Nat → M (Option Nat)} (ht : ∀ g, Within (Fills g) (tail g))
    (h : (do
      lockFetch
      match ← occupyFileTableSlot with
      | none => pure none
      | some g => tail g) s = .ok (r, t)) :
    OpenEnds s t := by
  obtain ⟨_, s₁, hlock, h⟩ := bind_eq_ok.mp h
  cases hlock
  have hslot : occupyFileTableSlot { s with gFtLock := s.gFtLock + 1 } =
    .ok (firstSlot s, { s with gFtLock := s.gFtLock + 1 }) := rfl
  replace h := (bind_ok hslot).symm.trans h
  cases hg : firstSlot s with
  | none =>
    rw [hg] at h
    cases h
    exact .inl ⟨firstSlot_none.mp hg, ⟨rfl, fun _ _ => rfl, fun _ _ => rfl, le_rfl⟩⟩
  | some g =>
    rw [hg] at h
    obtain ⟨f, hf, htable⟩ := ht g _ _ _ h
    refine .inr ⟨?_, fun heq => hf ?_⟩
    · by_contra hnone
      cases hg.symm.trans (firstSlot_none.mpr hnone)
    · have hfree := firstSlot_free hg
      rw [← heq, htable] at hfree
      replace hfree : (Function.update s.fileTable g f g).fdInode = none := hfree
      rwa [Function.update_self] at hfree

theorem openAux_ends (h : openAux nr flags s = .ok (r, t)) : OpenEnds s t :=
  underLock_ends (fun _ => fills_slot (inodeOpen_table nr)
    (f := fun p => { fdPos := 0, fdFlag := flags, fdInode := some p })
    (fun p => Option.some_ne_none p) fun _ => installThreadFd_table _) h

theorem fileOpen_ends (h : fileOpen nr flags s = .ok (r, t)) : OpenEnds s t := by
  refine underLock_ends (fun _ => fills_slot (inodeOpen_table nr)
    (f := fun p => { fdPos := 0, fdFlag := flags, fdInode := some p })
    (fun p => Option.some_ne_none p) fun p => ?_) h
  refine (inodeAt_table p).bind fun x => within_ite (fun _ => within_pure none) fun _ => ?_
  grind

theorem openPkgClient_ends {p : Nat} (hin : inCore s nr = some p)
    (h : openPkgClient nr flags s = .ok (r, t)) : OpenEnds s t := by
  unfold openPkgClient at h
  rw [bind_ok (inodeOpen_inCore hin)] at h
  obtain ⟨x, s₁, hx, hrest⟩ := bind_eq_ok.mp h
  obtain rfl := (inodeAt_ok hx).2
  obtain ⟨client, s₂, hclient, htail⟩ := bind_eq_ok.mp hrest
  have henv : SameOld s₁ s₂ ∧ s₂.fileTable = s₁.fileTable := by
    obtain ⟨_, s₃, hm, hclient⟩ := bind_eq_ok.mp hclient
    cases mustMalloc_ok hm
    cases hclient
    exact ⟨⟨rfl, fun _ _ => rfl, fun _ _ => rfl, le_rfl⟩, rfl⟩
  have hends : OpenEnds s₂ t := by
    refine underLock_ends (fun g => ?_) htail
    have hobject : ∀ y, Within SameSlots (do
        mustMalloc 100
        newInodeObject y) := fun y => (mustMalloc_table 100).bind fun _ => newInodeObject_table y
    have hfills := fills_slot (g := g) (hobject (clientInode client))
      (f := fun p => { fdPos := clientMark, fdFlag := flags, fdInode := some p })
      (k := fun _ => installThreadFd (some g)) (fun p => Option.some_ne_none p)
      fun _ => installThreadFd_table _
    rw [bind_assoc] at hfills
    exact hfills
  unfold OpenEnds FreeSlot at hends ⊢
  rw [henv.2] at hends
  exact hends.imp (And.imp id henv.1.trans) id

theorem looksAt_ok {p : Nat} {test : Inode → Bool} {b : Bool} (hin : inCore s nr = some p)
    (h : (do
      let p ← inodeOpen nr
      let x ← inodeAt p
      pure (test x)) s = .ok (b, t)) : t = s := by
  rw [bind_ok (inodeOpen_inCore hin)] at h
  obtain ⟨x, s₁, hx, hpure⟩ := bind_eq_ok.mp h
  cases hpure
  exact (inodeAt_ok hx).2

/-- An inode that has to be loaded stays in memory. -/
theorem openExisting_ends (h : openExisting nr flags s = .ok (r, t)) :
    (inCore s nr ≠ none ∧ OpenEnds s t) ∨
      (inCore s nr = none ∧ s.openInodes.length < t.openInodes.length) := by
  obtain ⟨char, s₁, hchar, hrest⟩ := bind_eq_ok.mp h
  cases hin : inCore s nr with
  | none =>
    refine .inr ⟨rfl, ?_⟩
    have hgrows : Grows s₁ t := opens_grows.openKind nr flags char _ _ _ hrest
    obtain ⟨p, s₂, hopen, hlook⟩ := bind_eq_ok.mp hchar
    obtain ⟨x, s₃, hx, hpure⟩ := bind_eq_ok.mp hlook
    cases hpure
    obtain rfl := (inodeAt_ok hx).2
    rcases inodeOpen_ok hopen with ⟨hsome, -⟩ | ⟨-, rfl, e, rfl⟩
    · cases hin.symm.trans hsome
    · exact hgrows
  | some p =>
    refine .inl ⟨Option.some_ne_none p, ?_⟩
    obtain rfl := looksAt_ok hin hchar
    cases char with
    | true =>
      obtain ⟨aux, s₂, haux, hrest'⟩ := bind_eq_ok.mp hrest
      obtain rfl := looksAt_ok hin haux
      cases aux with
      | true => exact openAux_ends hrest'
      | false =>
        obtain ⟨lfb, s₃, hlfb, hopen⟩ := bind_eq_ok.mp hrest'
        obtain rfl := looksAt_ok hin hlfb
        cases lfb with
        | true => exact openAux_ends hopen
        | false => exact openAux_ends hopen
    | false =>
      obtain ⟨pkg, s₂, hpkg, hopen⟩ := bind_eq_ok.mp hrest
      obtain rfl := looksAt_ok hin hpkg
      cases pkg with
      | true => exact openPkgClient_ends hin hopen
      | false => exact fileOpen_ends hopen

end Existing

/-! ## The last name -/

section Last
variable {s t u v w : State} {m : Option Nat} {d n : Nat} {x y : Inode}
  {pathname lastName : Name} {flags : Nat}

def openLast (pathname : Name) (dir : Nat) (lastName : Name) (flags : Nat) : M (Option Nat) := do
  match ← searchFile dir lastName with
  | none =>
    if hasFlag flags oCreat then openNew pathname dir lastName flags
    else
      dirClose dir
      pure none
  | some inodeNr =>
    if hasFlag flags oCreat then
      dirClose dir
      pure none
    else openExisting inodeNr flags

theorem openLast_ebbs (k : Nat) (pathname : Name) (dir : Nat) (lastName : Name) (flags : Nat) :
    Within (Ebbs k) (openLast pathname dir lastName flags) := by
  have hclose : Within (Ebbs k) (do
      dirClose dir
      pure (none : Option Nat)) := (dirClose_ebbs dir).bind fun _ => within_pure none
  refine (ebbs (env_core (searchFile_env dir lastName))).bind fun found => ?_
  cases found with
  | none => exact within_ite (fun _ => openNew_ebbs pathname dir lastName flags) fun _ => hclose
  | some nr => exact within_ite (fun _ => hclose) fun _ => (opens_ebbs k).openExisting nr flags

/-- In the directory of the inode `m` or the root, after `n` allocations: closing it takes no
reference and a creation takes nothing, or every inode is in memory and no slot is free. -/
def EndClean (s : State) (e : Env) (n : Nat) (pathname lastName : Name) (flags : Nat)
    (m : Option Nat) (y : Inode) : Prop :=
  match nameIn s.disk y lastName with
  | none => Shut s m ∧ (hasFlag flags oCreat = true →
      if pathname.take 8 = devPkg then
        CreateClean s e (n + searchAllocs y + 2) y (prefixIn s.disk y lastName = none)
      else CreateClean s e (n + searchAllocs y) y True)
  | some nr =>
    if hasFlag flags oCreat then Shut s m
    else (∀ k, m = some k → inCore s k ≠ none) ∧ inCore s nr ≠ none ∧ ¬ FreeSlot s

theorem At.close_iff (hf : s.Fresh) (h : At s u m d x) (hrun : dirClose d u = .ok ((), t)) :
    Unopened s t ↔ Shut s m := by
  rcases h.close hf hrun with ⟨hshut, hkeeps⟩ | ⟨hshut, hspoilt⟩
  · exact iff_of_true (hkeeps.unopened hf) hshut
  · exact iff_of_false hspoilt.not_unopened hshut

theorem SameButCount.zoneOf_eq (h : SameButCount x y) (disk : Store) (k : Nat) :
    zoneOf disk x k = zoneOf disk y k := by
  rw [h]
  rfl

/-- The walk has come to change the objects, their list and the lock. -/
theorem At.eq (h : At s v m d x) : v =
    { s with env := v.env, inodes := v.inodes, dirs := v.dirs, next := v.next,
             gFtLock := v.gFtLock, openInodes := v.openInodes } :=
  congrArg (fun w : State => { w with
    env := v.env, inodes := v.inodes, dirs := v.dirs, next := v.next,
    gFtLock := v.gFtLock, openInodes := v.openInodes }) h.keeps.rest

theorem At.map (h : At s v m d x) (hm : ZoneMapOk s) : ZoneMapOk v := by
  rw [h.eq]
  exact ⟨hm.len, hm.pad⟩

theorem At.holdsZones (h : At s v m d x) (hx : SameButCount x y) (hz : HoldsZones s y) :
    HoldsZones v x := by
  rw [hx, h.eq]
  exact ⟨⟨hz.used.zone, hz.used.table⟩, hz.data, hz.table⟩

/-- The condition reads what the walk leaves as it was. -/
theorem At.createClean_iff {e : Env} {k : Nat} {C : Prop} (h : At s v m d x)
    (hx : SameButCount x y) (he : ∀ i, v.env.malloc i = e.malloc (i + n)) :
    CreateClean v v.env k x C ↔ CreateClean s e (n + k) y C := by
  have hmap : v.inodeBitmap = s.inodeBitmap := h.keeps.part State.inodeBitmap
  have hfile : v.fileTable = s.fileTable := h.keeps.part State.fileTable
  have hdisk : v.disk = s.disk := h.keeps.part State.disk
  have hslot : firstSlot v = firstSlot s := by rw [firstSlot, hfile, firstSlot]
  have hfull : FullDir v.disk x ↔ FullDir s.disk y := by
    unfold FullDir
    simp only [hdisk, hx.zoneOf_eq]
  unfold CreateClean
  rw [hmap, hslot, hfile, hfull, he k, he (k + 1), Nat.add_comm k n, Nat.add_right_comm k 1 n,
    Nat.add_comm k n]

/-- A creation keeps everything or leaves a mark, which closing the directory does not remove. -/
theorem At.create_iff {C : Prop} {create : M (Option Nat)} (hf : s.Fresh) (h : At s v m d x)
    (hends : ∀ o, create v = .ok (none, o) → Ends C v o)
    (hrun : (do
      let fd ← create
      dirClose d
      pure fd) v = .ok (none, t)) : Unopened s t ↔ Shut s m ∧ C := by
  obtain ⟨fd, o, hcreate, hrest⟩ := bind_eq_ok.mp hrun
  obtain ⟨_, t', hclose, hpure⟩ := bind_eq_ok.mp hrest
  cases hpure
  rcases hends o hcreate with ⟨hC, hkeeps⟩ | ⟨hC, hmarked⟩
  · rw [(h.later hf hkeeps).close_iff hf hclose, and_iff_left hC]
  · refine iff_of_false (Marked.not_unopened ?_) fun hr => hC hr.2
    have hslots : t.mountedTable = o.mountedTable := dirClose_table d _ _ _ hclose
    have hfile : t.fileTable = o.fileTable := congrArg (fun v => v.2.2) hslots
    have hzone : t.zoneBitmap = o.zoneBitmap := (dirClose_disk hclose).2
    rw [h.eq] at hmarked
    unfold Marked
    rw [hfile, hzone]
    exact hmarked

theorem openNew_ends (hok : OpenOk s) (h : At s v m d x) (hx : SameButCount x y)
    (hz : HoldsZones s y) (he : Allocates n w v)
    (hrun : openNew pathname d lastName flags v = .ok (none, t)) :
    Unopened s t ↔ Shut s m ∧
      if pathname.take 8 = devPkg then
        CreateClean s w.env (n + 2) y (prefixIn s.disk y lastName = none)
      else CreateClean s w.env n y True := by
  obtain ⟨p, hp, -, hd⟩ := h.dirAt hok.fresh
  have hsb : v.sb = s.sb := by rw [h.eq]
  have hlayout : Layout v.sb := hsb ▸ hok.layout
  have hmap := h.map hok.map
  have hzones := h.holdsZones hx hz
  have hprefix : prefixIn v.disk x lastName = prefixIn s.disk y lastName := by
    rw [show v.disk = s.disk from h.keeps.part State.disk, hx]
    rfl
  unfold openNew at hrun
  by_cases hpkg : pathname.take 8 = devPkg
  · rw [if_pos hpkg] at hrun ⊢
    refine h.create_iff hok.fresh (fun o hcreate => ?_) hrun
    rw [← h.createClean_iff hx he, ← hprefix]
    exact openPkgServer_clean hlayout hmap hd hp hzones hcreate
  · rw [if_neg hpkg] at hrun ⊢
    refine h.create_iff hok.fresh (fun o hcreate => ?_) hrun
    have hiff := h.createClean_iff (k := 0) (C := True) hx he
    rw [Nat.add_zero] at hiff
    rw [← hiff]
    exact fileCreate_clean hlayout hmap hd hp hzones hcreate

/-- Nothing has been loaded, or the inode of the directory stays in memory. -/
theorem At.loaded_or (h : At s v m d x) :
    (SameOld s v ∧ ∀ k, m = some k → inCore s k ≠ none) ∨
      (s.openInodes.length < v.openInodes.length ∧ ¬ ∀ k, m = some k → inCore s k ≠ none) := by
  cases h with
  | root keeps dir hp hd => exact .inl ⟨keeps, nofun⟩
  | @held nr p d x hin hne hlt keeps dir =>
    refine .inl ⟨keeps, fun k hk => ?_⟩
    cases hk
    rw [hin]
    exact Option.some_ne_none p
  | @loaded nr p d x hnone hne hp hd hlt keeps list dir count =>
    refine .inr ⟨?_, fun hall => hall nr rfl hnone⟩
    rw [list]
    exact Nat.lt_succ_self _

theorem Unopened.not_longer (h : Unopened s t) : ¬ s.openInodes.length < t.openInodes.length := by
  rw [h.openInodes]
  exact lt_irrefl _

theorem At.existing_iff {nr : Nat} {r : Option Nat} (hf : s.Fresh) (h : At s v m d x)
    (hrun : openExisting nr flags v = .ok (r, t)) :
    Unopened s t ↔
      (∀ k, m = some k → inCore s k ≠ none) ∧ inCore s nr ≠ none ∧ ¬ FreeSlot s := by
  rcases h.loaded_or with ⟨hkeeps, hheld⟩ | ⟨hlonger, hheld⟩
  · rw [and_iff_right hheld]
    have hlist : v.openInodes = s.openInodes := hkeeps.part State.openInodes
    have hfile : v.fileTable = s.fileTable := hkeeps.part State.fileTable
    have hslot : FreeSlot v ↔ FreeSlot s := by rw [FreeSlot, hfile, FreeSlot]
    have hends := openExisting_ends hrun
    rw [hkeeps.inCore_eq hf] at hends
    rcases hends with ⟨hin, ⟨hfree, hlast⟩ | ⟨hfree, htaken⟩⟩ | ⟨hnone, hlonger⟩
    · exact iff_of_true ((hkeeps.trans hlast).unopened hf) ⟨hin, hslot.not.mp hfree⟩
    · refine iff_of_false (fun hu => htaken ?_) fun hr => hr.2 (hslot.mp hfree)
      rw [hfile, hu.fileTable]
    · rw [hlist] at hlonger
      exact iff_of_false (fun hu => hu.not_longer hlonger) fun hr => hr.1 hnone
  · have hgrows : Grows v t := opens_grows.openExisting nr flags _ _ _ hrun
    exact iff_of_false (fun hu => hu.not_longer (hlonger.trans_le hgrows)) fun hr => hheld hr.1

theorem openLast_ends (hok : OpenOk s) (h : At s u m d x) (hx : SameButCount x y)
    (hz : HoldsZones s y) (he : Allocates n w u)
    (hrun : openLast pathname d lastName flags u = .ok (none, t)) :
    Unopened s t ↔ EndClean s w.env n pathname lastName flags m y := by
  obtain ⟨found, v, hsearch, hrest⟩ := bind_eq_ok.mp hrun
  obtain ⟨p, -, -, hat⟩ := h.dirAt hok.fresh
  obtain ⟨hfound, henv⟩ := searchFile_ok hat hsearch
  have hdisk : u.disk = s.disk := h.keeps.part State.disk
  rw [hdisk, hx.nameIn_eq] at hfound
  have hv := h.later hok.fresh henv.keeps
  have hcount := searchFile_allocates hat hsearch
  rw [hx.searchAllocs_eq] at hcount
  unfold EndClean
  rw [← hfound]
  cases found with
  | none =>
    by_cases hflag : hasFlag flags oCreat = true
    · simp only [hflag, if_pos, true_implies] at hrest ⊢
      exact openNew_ends hok hv hx hz (he.trans hcount) hrest
    · simp only [if_neg hflag] at hrest
      obtain ⟨_, t', hclose, hpure⟩ := bind_eq_ok.mp hrest
      cases hpure
      rw [hv.close_iff hok.fresh hclose]
      exact ⟨fun hshut => ⟨hshut, fun hset => absurd hset hflag⟩, And.left⟩
  | some nr =>
    by_cases hflag : hasFlag flags oCreat = true
    · simp only [if_pos hflag] at hrest ⊢
      obtain ⟨_, t', hclose, hpure⟩ := bind_eq_ok.mp hrest
      cases hpure
      exact hv.close_iff hok.fresh hclose
    · simp only [if_neg hflag] at hrest ⊢
      exact hv.existing_iff hok.fresh hrest

end Last

/-! ## The whole call -/

section Call
variable {s t : State} {pathname : Name} {flags : Nat} {r : Option Nat}

/-- The last name and those that the walk goes along, if there is memory for them. -/
def openNames (pathname : Name) : M (Option (Name × List Name)) := do
  let c ← lastChar pathname
  if c = slash then pure none
  else
    let path ← mustCopyPath pathname
    let (_, lastName) ← pathPeel path
    let depth ← pathDepth pathname
    if depth ≤ 1 then pure (some (lastName, []))
    else
      mustMalloc (16 * depth)
      match ← pathDirs pathname depth with
      | none => pure none
      | some dirs => pure (some (lastName, walkNames dirs depth))

/-- The walk, and what comes after it. -/
def openAlong (pathname : Name) (flags : Nat) (lastName : Name) (names : List Name) :
    M (Option Nat) := do
  match ← openWalk rootDir names with
  | none => pure none
  | some d => openLast pathname d lastName flags

theorem lastChar_env (pathname : Name) : Within OnlyEnv (lastChar pathname) := by
  unfold lastChar
  cases pathname.getLast? with
  | some c => exact within_pure c
  | none =>
    intro s c t h
    cases h
    rfl

/-- The path names no file, or there is no memory, or the walk begins. -/
theorem sysOpen_named (h : sysOpen pathname flags s = .ok (r, t)) :
    (openNames pathname s = .ok (none, t) ∧ OnlyEnv s t) ∨
      ∃ lastName names u, openNames pathname s = .ok (some (lastName, names), u) ∧ OnlyEnv s u ∧
        openAlong pathname flags lastName names u = .ok (r, t) := by
  obtain ⟨c, s₁, hchar, hrest⟩ := bind_eq_ok.mp h
  have henv := lastChar_env pathname _ _ _ hchar
  unfold openNames
  simp only [bind_ok hchar]
  by_cases hc : c = slash
  · simp only [if_pos hc] at hrest ⊢
    cases hrest
    exact .inl ⟨rfl, henv⟩
  · simp only [if_neg hc] at hrest ⊢
    obtain ⟨found, s₂, hdir, hrest⟩ := bind_eq_ok.mp hrest
    obtain ⟨path, s₃, hcopy, hdir⟩ := bind_eq_ok.mp hdir
    obtain ⟨⟨parent, lastName⟩, s₄, hpeel, hdir⟩ := bind_eq_ok.mp hdir
    obtain ⟨depth, s₅, hdepth, hdir⟩ := bind_eq_ok.mp hdir
    have hmust : Within OnlyEnv (mustCopyPath pathname) :=
      (copyPath_env pathname).bind fun _ => within_need _ _
    have henv₃ : OnlyEnv s s₃ := IsTrans.trans _ _ _ henv (hmust _ _ _ hcopy)
    have henv₄ : OnlyEnv s s₄ := IsTrans.trans _ _ _ henv₃ (pathPeel_env _ _ _ _ hpeel)
    have henv₅ : OnlyEnv s s₅ := IsTrans.trans _ _ _ henv₄ (pathDepth_env _ _ _ _ hdepth)
    simp only [bind_ok hcopy, bind_ok hpeel, bind_ok hdepth]
    by_cases hd : depth ≤ 1
    · simp only [if_pos hd] at hdir ⊢
      cases hdir
      exact .inr ⟨lastName, [], _, rfl, henv₅, hrest⟩
    · simp only [if_neg hd] at hdir ⊢
      obtain ⟨_, s₆, hm, hdir⟩ := bind_eq_ok.mp hdir
      obtain ⟨dirs, s₇, hdirs, hdir⟩ := bind_eq_ok.mp hdir
      have henv₆ : OnlyEnv s s₆ := IsTrans.trans _ _ _ henv₅ (mustMalloc_env _ _ _ _ hm)
      have henv₇ : OnlyEnv s s₇ := IsTrans.trans _ _ _ henv₆ (pathDirs_env _ _ _ _ _ hdirs)
      simp only [bind_ok hm, bind_ok hdirs]
      cases dirs with
      | none =>
        cases hdir
        cases hrest
        exact .inl ⟨rfl, henv₇⟩
      | some dirs =>
        refine .inr ⟨lastName, walkNames dirs depth, s₇, rfl, henv₇, ?_⟩
        obtain ⟨walked, s₈, hwalk, hdir⟩ := bind_eq_ok.mp hdir
        unfold openAlong
        rw [bind_ok hwalk]
        cases walked with
        | none =>
          cases hdir
          exact hrest
        | some d =>
          cases hdir
          exact hrest

/-- The inode of the directory in which the last name is looked for. -/
def LeadsTo (s : State) (pathname : Name) (y : Inode) : Prop :=
  ∃ lastName names u p x, openNames pathname s = .ok (some (lastName, names), u) ∧
    DirAt s rootDir p x ∧ Leads s x names y

/-- There is no memory for the path or it names a directory, or every directory of the walk is one
that it may close, and the call ends at the last without a trace. -/
def OpenFailsCleanly (s : State) (pathname : Name) (flags : Nat) : Prop :=
  ∀ lastName names u, openNames pathname s = .ok (some (lastName, names), u) →
    ∀ p x, DirAt s rootDir p x →
      WalkClean s (EndClean s u.env (walkAllocs s x names) pathname lastName flags) none x names

theorem dirAt_of_openAlong {lastName : Name} {names : List Name}
    (h : openAlong pathname flags lastName names s = .ok (r, t)) : ∃ p x, DirAt s rootDir p x := by
  obtain ⟨walked, s₁, hwalk, hrest⟩ := bind_eq_ok.mp h
  cases names with
  | nil =>
    cases hwalk
    obtain ⟨found, s₂, hsearch, -⟩ := bind_eq_ok.mp hrest
    exact dirAt_of_search hsearch
  | cons name names =>
    obtain ⟨found, s₂, hsearch, -⟩ := bind_eq_ok.mp hwalk
    exact dirAt_of_search hsearch

/-- A failed call leaves all as it was just in these cases. -/
theorem failed_open_exact (hok : OpenOk s) (hz : ∀ y, LeadsTo s pathname y → HoldsZones s y)
    (h : sysOpen pathname flags s = .ok (none, t)) :
    Unopened s t ↔ OpenFailsCleanly s pathname flags := by
  rcases sysOpen_named h with ⟨hnames, henv⟩ | ⟨lastName, names, u, hnames, henv, hrun⟩
  · refine iff_of_true (henv.keeps.unopened hok.fresh) fun lastName names u hu => ?_
    cases hnames.symm.trans hu
  · obtain ⟨p, x, hdu⟩ := dirAt_of_openAlong hrun
    have hd : DirAt s rootDir p x := by rwa [henv.eq] at hdu
    have hroot : rootDir < s.next := by
      by_contra hge
      have hnone := hok.fresh.dirs rootDir (Nat.le_of_not_lt hge)
      have hdir := hd.1
      rw [hnone] at hdir
      cases hdir
    have hp : p < s.next := by
      by_contra hge
      cases hd.2.symm.trans (hok.inodes p (Nat.le_of_not_lt hge))
    have hcond : OpenFailsCleanly s pathname flags ↔
        WalkClean s (EndClean s u.env (walkAllocs s x names) pathname lastName flags) none x
          names := by
      refine ⟨fun hall => hall lastName names u hnames p x hd, fun hclean _ _ _ hu q y hq => ?_⟩
      cases hnames.symm.trans hu
      obtain ⟨rfl, rfl⟩ := hd.inj hq
      exact hclean
    rw [hcond]
    obtain ⟨walked, v, hwalk, hrest⟩ := bind_eq_ok.mp hrun
    have hat : At s u none rootDir x := .root henv.keeps hd hp hroot
    rcases openWalk_at hok (Nat.ne_of_gt hroot) hat (rfl : x = x) hwalk with
      ⟨hspoilt, hclean⟩ | ⟨rfl, hkeeps, hclean⟩ | ⟨d, m, x', y, rfl, hat, hx, hleads, hcount, hiff⟩
    · refine iff_of_false (Spoilt.not_unopened ?_) hclean
      cases walked with
      | none =>
        cases hrest
        exact hspoilt
      | some d =>
        exact hspoilt.later hok.fresh (openLast_ebbs s.next pathname d lastName flags _ _ _ hrest)
    · cases hrest
      exact iff_of_true (hkeeps.unopened hok.fresh) hclean
    · rw [hiff]
      have hlast := hz y ⟨lastName, names, u, p, x, hnames, hd, hleads⟩
      exact openLast_ends hok hat hx hlast hcount hrest

end Call

/-! ## In a small tree -/

theorem rootWithChild_stored {nr : Nat} (h : nr < rootWithChild.sb.sNinodes) :
    (storedInode rootWithChild nr).iCount = 0 := by
  by_cases h1 : nr = 1
  · subst h1
    decide +kernel
  · have htable : rootWithChild.sb.sInodeTableLba = 4 := by decide +kernel
    have hnr : nr < 4096 := h.trans_eq (by decide +kernel)
    -- the byte lies in the table and not in the inode 1
    have hbyte : ∀ lba cnt i a, 512 * lba + i = a → a < 512 * 900 →
        (a < 512 * 4 + 100 ∨ 512 * 4 + 200 ≤ a) → sectors rootWithChild.disk lba cnt i = 0 := by
      intro lba cnt i a ha hlt hout
      unfold sectors
      split
      · rw [ha]
        show patch _ _ _ _ a = 0
        rw [patch_out (by omega), patch_out (by omega), patch_out (by omega)]
      · rfl
    have hmul : u32 (nr * 100) = nr * 100 := u32_of_lt (by omega)
    have hlba : (inodePosition rootWithChild.sb nr).startLba = 4 + nr * 100 / 512 := by
      show u32 (rootWithChild.sb.sInodeTableLba + u32 (nr * 100) / 512) = _
      rw [hmul, htable, u32_of_lt (by omega)]
    have hoff : (inodePosition rootWithChild.sb nr).offset = nr * 100 % 512 := by
      show u32 (nr * 100) % 512 = _
      rw [hmul]
    unfold storedInode Inode.ofBytes le16
    simp only [hlba, hoff]
    rw [hbyte _ _ _ (512 * 4 + nr * 100 + 82) (by omega) (by omega) (by omega),
      hbyte _ _ _ (512 * 4 + nr * 100 + 83) (by omega) (by omega) (by omega)]
    rfl

theorem rootWithChild_openOk : OpenOk rootWithChild where
  layout := rootWithChild_ok.layout
  map := rootWithChild_ok.map
  fresh := rootWithChild_fresh
  inodes p hp := by
    have hne : p ≠ 1 := by
      rintro rfl
      exact absurd hp (by decide)
    exact Function.update_of_ne hne _ fun _ => none
  stored _ := rootWithChild_stored

/-- The directory "a/" is found and loaded, the file is not, and the directory is closed again. -/
theorem failed_open_exact_missing : ∃ t,
    sysOpen [slash, 97#8, slash, 102#8] 0 rootWithChild = .ok (none, t) ∧
      (Unopened rootWithChild t ↔
        OpenFailsCleanly rootWithChild [slash, 97#8, slash, 102#8] 0) := by
  obtain ⟨t, hrun⟩ : ∃ t, sysOpen [slash, 97#8, slash, 102#8] 0 rootWithChild = .ok (none, t) :=
    ok_of_result (by decide +kernel)
  refine ⟨t, hrun, failed_open_exact rootWithChild_openOk ?_ hrun⟩
  rintro y ⟨lastName, names, u, p, x, hnames, hd, hleads⟩
  obtain ⟨v, hv⟩ : ∃ v, openNames [slash, 97#8, slash, 102#8] rootWithChild =
      .ok (some ([102#8], [[97#8, slash]]), v) :=
    ok_of_result (by decide +kernel)
  cases hnames.symm.trans hv
  obtain ⟨rfl, rfl⟩ := hd.inj rootWithChild_root
  cases hleads with
  | cons hname hrest =>
    cases hrest
    have hnone : inCore rootWithChild 1 = none := by decide +kernel
    have hnamed : NamedInRoot rootWithChild 1 :=
      ⟨1, _, _, rootWithChild_root, rootWithChild_names hname ▸ hname⟩
    rw [rootWithChild_names hname]
    have hstored := rootWithChild_ok.stored 1 hnamed hnone
    rwa [inodeNow, hnone]

/-- No descriptor is free. -/
def noDescriptor : State := { rootWithChild with fdTable := fun _ => some 0 }

/-- The file is made all the same: its slot and its inode stay. -/
theorem no_descriptor_leaves : OpenOk noDescriptor ∧ ∃ t,
    sysOpen [slash, 102#8] oCreat noDescriptor = .ok (none, t) ∧ ¬ Unopened noDescriptor t := by
  have hok := rootWithChild_openOk
  have hresult : (sysOpen [slash, 102#8] oCreat noDescriptor).map
      (fun r => (r.1, r.2.openInodes.length)) = .ok (none, 2) := by
    decide +kernel
  obtain ⟨r, t, hrun, hleft⟩ := ok_of_map hresult
  simp only [Prod.mk.injEq] at hleft
  obtain ⟨rfl, hopen⟩ := hleft
  refine ⟨⟨hok.layout, ⟨hok.map.len, hok.map.pad⟩, ⟨hok.fresh.dirs, hok.fresh.openInodes⟩,
    hok.inodes, hok.stored⟩, t, hrun, fun h => ?_⟩
  rw [h.openInodes] at hopen
  cases hopen

end Frog.Fs
