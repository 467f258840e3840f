import Frog.Compositor.PointerRuns

/-!
# Creating a window

`quick_create_window` with any outcome of its five allocations and any size that a client asks for.
-/

set_option autoImplicit false

namespace Frog.Compositor

open Prog Painter HashMap

/-- What `malloc` returns: for the window and the entry of the hash map an address or not, for the
buffer, the context and the damage rectangle whether there is one. -/
structure Allocs where
  win : Word
  entry : Option Addr
  buffer : Bool
  ctx : Bool
  rect : Bool

/-- The size of a window's buffer, in 32 bits. -/
def bufferSize (width height : Int) : Int := u32 (width * height * 4)

/-- `quick_create_window`, where each address is written to as soon as `malloc` has returned it. -/
def quickCreateWindowIn (a : Allocs) (x y width height : Int) (color owner : Word) : M Unit := do
  serverWindowCreate a.win a.entry width height owner
  -- `memset` of a buffer that is `NULL`
  check (a.buffer ∨ bufferSize width height = 0) .outside
  let w ← window a.win
  setWindow a.win (some { w with hidden := false, x := x, y := y })
  check a.ctx .outside
  drawWindow a.win (drawFill color)
  check a.rect .outside
  markWindow a.win
  modify fun s => { s with bottomZ := a.win }

/-- The window is created in a buffer that is large enough, and nothing outside of it is written to. -/
structure CreatesSafely (a : Allocs) (s : Globals) (x y width height color owner : Word) : Prop where
  returns : ∃ t, quickCreateWindowIn a x.toInt y.toInt width.toInt height.toInt color owner s =
    .ok ((), t)
  enough : ((width.toNat * height.toNat * 4 : Nat) : Int) ≤ bufferSize width.toInt height.toInt

/-- Every allocation that is written to has succeeded: an entry for an empty bucket may fail, and so may
the buffer of a window without pixels. -/
structure EnoughMemory (a : Allocs) (s : Globals) (width height : Word) : Prop where
  win : a.win ≠ NULL
  entry : a.entry ≠ none ∨
    s.widsToWindows.entry (hashFunction s.winIdCount s.widsToWindows.size) = none
  buffer : a.buffer = true ∨ width.toNat * height.toNat = 0
  ctx : a.ctx = true
  rect : a.rect = true

/-- The size does not wrap, and the `uint_16` counters reach it. -/
structure SmallSize (width height : Word) : Prop where
  bytes : width.toNat * height.toNat * 4 < 2 ^ 32
  rows : height.toNat < 65536
  columns : width.toNat < 65536 ∨ height.toNat = 0

variable {a : Allocs} {s t : Globals} {x y width height color owner : Word}

/-- With every allocation it is the function that the other results are about. -/
theorem quickCreateWindowIn_all (x y width height : Int) (hbuffer : a.buffer = true)
    (hctx : a.ctx = true) (hrect : a.rect = true) :
    quickCreateWindowIn a x y width height color owner =
      quickCreateWindow a.win a.entry x y width height color owner := by
  unfold quickCreateWindowIn quickCreateWindow
  rw [hbuffer, hctx, hrect]
  rfl

/-! ## The hash map -/

/-- Without an entry only an empty bucket is left alone. -/
theorem wp_hashmapSet_none {m : Hashmap} {C : Nat → List Cell} {fuel : Nat} {key v : HashMap.Word}
    {Q : Option Addr → Hashmap → Prop} (r : Rep m C) : wp Never (hashmapSet fuel none key v) Q m ↔
      m.entry (hashFunction key m.size) = none ∧ Q none m := by
  have hvalid : (Slot.bucket (hashFunction key m.size)).Valid m := r.hash_lt key
  rw [hashmapSet, wp_bind, index, wp_bind, wp_get, wp_pure, wp_bind, wp_load hvalid, Slot.read]
  cases m.entry (hashFunction key m.size) with
  | none =>
    change wp Never (pure none) Q m ↔ _
    rw [wp_pure]
    simp
  | some e =>
    change wp Never (need none .dangling >>= _) Q m ↔ _
    rw [wp_bind, wp_need]
    simp [Never]

/-- A new window is entered when there is an entry, or no need of one. -/
theorem hashmapSet_returns (h : Inv s)
    (hfresh : ∀ e, a.entry = some e → s.widsToWindows.heap e = none) {v : Word} :
    (∃ o m, hashmapSet (s.changes + 1) a.entry s.winIdCount v s.widsToWindows = .ok (o, m)) ↔
      (a.entry ≠ none ∨
        s.widsToWindows.entry (hashFunction s.winIdCount s.widsToWindows.size) = none) := by
  obtain ⟨spec, hh, -⟩ := h.map
  cases hentry : a.entry with
  | some e =>
    obtain ⟨hset, -, -⟩ := hh.returns (Nat.lt_succ_self _) s.winIdCount v
    exact iff_of_true (hset e (hfresh e hentry)) (.inl (Option.some_ne_none e))
  | none =>
    obtain ⟨C, r, -, -⟩ := hh
    rw [returns_iff]
    change wp Never _ _ _ ↔ _
    rw [wp_hashmapSet_none r]
    simp

/-! ## The window -/

/-- The window before its buffer is there. -/
def hiddenWindow (wid : Word) (width height : Int) (owner : Word) : Window :=
  ⟨wid, 0, 0, width, height, owner, 255, true, false, fun _ => 0⟩

theorem serverWindowCreate_returns {width height : Int} (hwin : a.win ≠ NULL) {o : Option Addr}
    {m : Hashmap}
    (hset : hashmapSet (s.changes + 1) a.entry s.winIdCount a.win s.widsToWindows = .ok (o, m)) :
    serverWindowCreate a.win a.entry width height owner s =
      .ok ((), s.opened a.win m (hiddenWindow s.winIdCount width height owner)) := by
  apply run_eq_of_wp
  rw [serverWindowCreate, wp_bind, wp_check]
  refine ⟨fun _ => ?_, fun hn => absurd hwin hn⟩
  rw [nextWid, wp_bind, wp_bind, wp_get, wp_bind, wp_modify, wp_pure, wp_bind, wp_modify, wp_bind,
    wp_of_ok (onMap_ok (t := m) (a := o) hset), wp_bind, changed, wp_modify, Compositor.setWindow,
    wp_modify]
  exact ⟨rfl, rfl⟩

theorem serverWindowCreate_ok {width height : Int} {u : Unit}
    (h : serverWindowCreate a.win a.entry width height owner s = .ok (u, t)) : a.win ≠ NULL ∧
      ∃ o m, hashmapSet (s.changes + 1) a.entry s.winIdCount a.win s.widsToWindows = .ok (o, m) := by
  have hw : wp (fun _ => False) (serverWindowCreate a.win a.entry width height owner)
      (fun _ _ => True) s := (wp_of_ok h).mpr trivial
  rw [serverWindowCreate, wp_bind, wp_check] at hw
  obtain ⟨hpos, hneg⟩ := hw
  have hwin : a.win ≠ NULL := fun hn => hneg (not_not.mpr hn)
  have hrest := hpos hwin
  rw [nextWid, wp_bind, wp_bind, wp_get, wp_bind, wp_modify, wp_pure, wp_bind, wp_modify,
    wp_bind] at hrest
  refine ⟨hwin, ?_⟩
  cases hset : hashmapSet (s.changes + 1) a.entry s.winIdCount a.win s.widsToWindows with
  | ok r => exact ⟨r.1, r.2, rfl⟩
  | error e =>
    unfold wp onMap at hrest
    simp only [hset] at hrest

/-! ## Filling -/

theorem wp_put_iff {c : Context} {ws : List (Int × (Word → Word))} {Q : Unit → Context → Prop} :
    wp (fun _ => False) (put ws) Q c ↔ (∀ w ∈ ws, 0 ≤ w.1 ∧ w.1 < c.size) ∧
      Q () { c with backbuffer := writeAll ws c.backbuffer } := by
  induction ws generalizing c with
  | nil =>
    rw [put, wp_pure]
    constructor
    · intro h
      refine ⟨?_, h⟩
      intro w hw
      cases hw
    · intro h
      exact h.2
  | cons w ws ih =>
    rw [put, wp_bind, wp_get, wp_bind, wp_check, wp_bind, wp_modify, ih, List.forall_mem_cons]
    constructor
    · intro h
      have hw : 0 ≤ w.1 ∧ w.1 < c.size := not_not.mp h.2
      exact ⟨⟨hw, (h.1 hw).1⟩, (h.1 hw).2⟩
    · intro h
      exact ⟨fun _ => ⟨h.1.2, h.2⟩, fun hn => hn h.1.1⟩

/-- What `draw_fill` needs of a context. -/
structure Context.Fillable (c : Context) : Prop where
  rows : c.height < 65536
  columns : c.width < 65536 ∨ c.height ≤ 0
  inside : ∀ i j, 0 ≤ i → i < c.width → 0 ≤ j → j < c.height →
    0 ≤ c.index i j ∧ c.index i j < c.size

theorem wp_drawFill_iff {c : Context} {Q : Unit → Context → Prop}
    (hq : ∀ d, (Q () d ↔ Q () c)) :
    wp (fun _ => False) (drawFill color) Q c ↔ c.Fillable ∧ Q () c := by
  rw [drawFill, wp_bind, wp_get, wp_bind, wp_check, wp_put_iff, hq]
  constructor
  · intro h
    have hends : c.height < 65536 ∧ (c.width < 65536 ∨ c.height ≤ 0) := not_not.mp h.2
    refine ⟨⟨hends.1, hends.2, ?_⟩, (h.1 hends).2⟩
    intro i j hi hi' hj hj'
    apply (h.1 hends).1 (c.index i j, fun _ => color)
    apply List.mem_flatMap.mpr
    refine ⟨j, mem_between.mpr ⟨hj, by omega⟩, ?_⟩
    exact List.mem_map.mpr ⟨i, mem_between.mpr ⟨hi, by omega⟩, rfl⟩
  · intro h
    obtain ⟨hfill, hQ⟩ := h
    refine ⟨fun _ => ⟨?_, hQ⟩, fun hn => hn ⟨hfill.rows, hfill.columns⟩⟩
    intro w hw
    obtain ⟨i, j, hi, hj, heq⟩ := mem_solid hw
    rw [heq]
    exact hfill.inside i j hi.1 (by omega) hj.1 (by omega)

/-! ## Sizes -/

theorem u32_toInt (w : Word) : u32 w.toInt = w.toNat := by
  have hlt := w.isLt
  unfold u32
  rw [BitVec.toInt_eq_toNat_bmod, Int.bmod_def]
  split <;> omega

/-- The signed product is the unsigned one in 32 bits. -/
theorem bufferSize_eq (width height : Word) : bufferSize width.toInt height.toInt =
    ((width.toNat * height.toNat * 4 % 2 ^ 32 : Nat) : Int) := by
  have hw := u32_toInt width
  have hh := u32_toInt height
  unfold bufferSize u32 at *
  rw [Int.mul_emod, Int.mul_emod width.toInt, hw, hh]
  push_cast
  omega

/-- The pixels of a window are inside of its buffer when their number does not wrap. -/
theorem fillable_iff {w : Window} (hw : w.width = width.toInt) (hh : w.height = height.toInt) :
    (initGfxPoudlandSwindow w).Fillable ↔ SmallSize width height := by
  have hwidth : (initGfxPoudlandSwindow w).width = width.toNat := by
    rw [← u32_toInt, ← hw]
    rfl
  have hheight : (initGfxPoudlandSwindow w).height = height.toNat := by
    rw [← u32_toInt, ← hh]
    rfl
  have hpitch : (initGfxPoudlandSwindow w).pitch = width.toNat := hwidth
  have hsize : (initGfxPoudlandSwindow w).size =
      ((width.toNat * height.toNat * 4 % 2 ^ 32 / 4 : Nat) : Int) := by
    change bufferSize w.width w.height / 4 = _
    rw [hw, hh, bufferSize_eq]
    rfl
  constructor
  · intro h
    obtain ⟨hrows, hcolumns, hinside⟩ := h
    rw [hheight] at hrows hcolumns
    rw [hwidth] at hcolumns
    refine ⟨?_, by omega, by omega⟩
    by_cases hpos : 0 < width.toNat ∧ 0 < height.toNat
    · -- The last pixel is the one that matters.
      have hlast := (hinside (width.toNat - 1) (height.toNat - 1) (by omega) (by omega) (by omega)
        (by omega)).2
      rw [Context.index, hpitch, hsize] at hlast
      have hprod : (width.toNat : Int) * (height.toNat - 1) + (width.toNat - 1) =
          ((width.toNat * height.toNat : Nat) : Int) - 1 := by
        push_cast
        ring
      rw [hprod] at hlast
      omega
    · have hzero : width.toNat * height.toNat = 0 := by
        rw [Nat.mul_eq_zero]
        omega
      rw [hzero]
      decide
  · intro h
    obtain ⟨hbytes, hrows, hcolumns⟩ := h
    refine ⟨by omega, by omega, ?_⟩
    intro i j hi hi' hj hj'
    rw [hwidth] at hi'
    rw [hheight] at hj'
    have hrow : (width.toNat : Int) * (j + 1) ≤ width.toNat * height.toNat :=
      mul_le_mul_of_nonneg_left (by omega) (by omega)
    have hlow : 0 ≤ (width.toNat : Int) * j := mul_nonneg (by omega) hj
    rw [Nat.mod_eq_of_lt hbytes] at hsize
    rw [Context.index, hpitch, hsize]
    rw [mul_add, mul_one] at hrow
    push_cast
    omega

/-! ## Creating -/

/-- The last steps, with the window in place. -/
theorem wp_marked {w : Window} (hat : t.At a.win w) :
    wp (fun _ => False) (do
      check a.rect .outside
      markWindow a.win
      modify fun s => { s with bottomZ := a.win }) (fun _ _ => True) t ↔ a.rect = true := by
  rw [wp_bind, wp_check_iff, wp_bind, wp_markWindow hat, wp_modify, and_true]

/-- What follows once the window is entered. -/
theorem returns_entered_iff {o : Option Addr} {m : Hashmap} (hwin : a.win ≠ NULL)
    (hset : hashmapSet (s.changes + 1) a.entry s.winIdCount a.win s.widsToWindows = .ok (o, m)) :
    (∃ u t, quickCreateWindowIn a x.toInt y.toInt width.toInt height.toInt color owner s =
      .ok (u, t)) ↔
      (a.buffer = true ∨ bufferSize width.toInt height.toInt = 0) ∧ a.ctx = true ∧
        SmallSize width height ∧ a.rect = true := by
  have hat : ∀ {w}, (s.opened a.win m w).At a.win w := Globals.opened_at hwin
  rw [returns_iff, quickCreateWindowIn, wp_bind, wp_of_ok (serverWindowCreate_returns hwin hset),
    wp_bind, wp_check_iff, wp_bind, wp_window hat, wp_bind, Compositor.setWindow, wp_modify, wp_bind,
    wp_check_iff]
  change _ ∧ _ ∧ wp _ _ _ (Globals.setWindow _ _
    (newWindow s.winIdCount x y width height owner fun _ => 0)) ↔ _
  rw [Globals.opened_setWindow, wp_bind, wp_drawWindow hat, wp_drawFill_iff, fillable_iff rfl rfl]
  · rw [Globals.opened_setWindow, wp_marked hat]
  · intro c
    rw [Globals.opened_setWindow, Globals.opened_setWindow, wp_marked hat, wp_marked hat]

/-- A window is created safely exactly when its size is small and no allocation that is needed fails. -/
theorem creates_safely_iff (h : Inv s)
    (hfresh : (Event.windowNew x y width height color owner a.win a.entry).Fresh s) :
    CreatesSafely a s x y width height color owner ↔
      EnoughMemory a s width height ∧ SmallSize width height := by
  have hentry := hashmapSet_returns h hfresh.2 (v := a.win)
  have hbuffer : SmallSize width height → (bufferSize width.toInt height.toInt = 0 ↔
      width.toNat * height.toNat = 0) := by
    intro hsmall
    rw [bufferSize_eq, Nat.mod_eq_of_lt hsmall.bytes]
    omega
  constructor
  · intro hsafe
    obtain ⟨t, hrun⟩ := hsafe.returns
    obtain ⟨u, s₁, hcreate, -⟩ := bind_eq_ok.mp hrun
    obtain ⟨hwin, o, m, hset⟩ := serverWindowCreate_ok hcreate
    obtain ⟨hbuf, hctx, hsmall, hrect⟩ := (returns_entered_iff hwin hset).mp ⟨(), t, hrun⟩
    exact ⟨⟨hwin, hentry.mp ⟨o, m, hset⟩, hbuf.imp_right (hbuffer hsmall).mp, hctx, hrect⟩, hsmall⟩
  · intro hcond
    obtain ⟨⟨hwin, hent, hbuf, hctx, hrect⟩, hsmall⟩ := hcond
    obtain ⟨o, m, hset⟩ := hentry.mpr hent
    obtain ⟨u, t, hrun⟩ := (returns_entered_iff (x := x) (y := y)
      hwin hset).mpr ⟨hbuf.imp_right (hbuffer hsmall).mpr, hctx, hsmall, hrect⟩
    refine ⟨⟨t, hrun⟩, ?_⟩
    rw [bufferSize_eq, Nat.mod_eq_of_lt hsmall.bytes]

/-- A small window for which every allocation succeeds is created. -/
theorem quickCreateWindow_returns {win : Addr} {e : HashMap.Addr} (h : Inv s)
    (hfresh : (Event.windowNew x y width height color owner win (some e)).Fresh s) (hwin : win ≠ NULL)
    (hsmall : SmallSize width height) : ∃ u t, quickCreateWindow win (some e) x.toInt y.toInt
      width.toInt height.toInt color owner s = .ok (u, t) := by
  let a : Allocs := ⟨win, some e, true, true, true⟩
  obtain ⟨o, m, hset⟩ := (hashmapSet_returns (a := a) h hfresh.2 (v := win)).mpr
    (.inl (Option.some_ne_none e))
  have hrun : ∃ u t, quickCreateWindowIn a x.toInt y.toInt width.toInt height.toInt color owner s =
      .ok (u, t) := (returns_entered_iff hwin hset).mpr ⟨.inl rfl, rfl, hsmall, rfl⟩
  rwa [quickCreateWindowIn_all _ _ _ _ rfl rfl rfl] at hrun

/-- A screen before its first window. -/
def emptyScreen : Globals := smallScreen.initial (fun _ => 0) (fun _ => 0) noCursor

def allAllocs : Allocs := ⟨1, some 0, true, true, true⟩

theorem creates_safely_ten : CreatesSafely allAllocs emptyScreen 5 5 10 10 0 0 :=
  (creates_safely_iff (Inv.initial smallScreen) ⟨.inr rfl, fun _ _ => rfl⟩).mpr
    ⟨⟨by decide, by decide, by decide, rfl, rfl⟩, ⟨by decide, by decide, by decide⟩⟩

theorem hashmapSet_empty : ∃ o m, hashmapSet (emptyScreen.changes + 1) (some 0) emptyScreen.winIdCount 1
    emptyScreen.widsToWindows = .ok (o, m) :=
  (hashmapSet_returns (a := allAllocs) (Inv.initial smallScreen) fun _ _ => rfl).mpr (by decide)

/-- A size that wraps to nothing, a height that a counter does not reach, and a buffer that is not
there. -/
theorem unsafe_sizes : ¬ CreatesSafely allAllocs emptyScreen 0 0 32768 32768 0 0 ∧
    ¬ CreatesSafely allAllocs emptyScreen 0 0 1 65536 0 0 ∧
    ¬ CreatesSafely { allAllocs with buffer := false } emptyScreen 0 0 10 10 0 0 := by
  obtain ⟨o, m, hset⟩ := hashmapSet_empty
  refine ⟨?_, ?_, ?_⟩
  · intro h
    exact absurd h.enough (by decide)
  · intro h
    obtain ⟨t, hrun⟩ := h.returns
    obtain ⟨-, -, hsmall, -⟩ := (returns_entered_iff (by decide) hset).mp ⟨(), t, hrun⟩
    exact absurd hsmall.rows (by decide)
  · intro h
    obtain ⟨t, hrun⟩ := h.returns
    obtain ⟨hbuffer, -⟩ := (returns_entered_iff (a := { allAllocs with buffer := false })
      (by decide) hset).mp ⟨(), t, hrun⟩
    exact absurd hbuffer (by decide)

end Frog.Compositor
