import Frog.Libc.Itoa

/-!
# printf and sprintf

`core/libc/stdio.c`. `printf` writes every character of `lvasprintf` to the standard output, `sprintf`
stores those of `mvsprintf` in its buffer, which is large enough. Both walk over the format alike and
convert on their own.
-/

namespace Frog.Libc

set_option autoImplicit false
open Bytes Prog

/-- A string in memory, where no object has more than `2 ^ 31 - 1` bytes. -/
structure CString where
  chars : List Byte
  nonzero : 0 ∉ chars
  fits : chars.length < 2 ^ 31

/-- An argument as it was passed; a null pointer is `none`. -/
inductive Arg where
  | int (v : BitVec 32)
  | str (s : Option CString)

/-- `out` is what was put so far; the pointer `res` stands behind it. -/
structure State where
  ap : List Arg
  out : List Byte
  resLen : BitVec 32

abbrev M := Prog Fault State

def vaInt : M (BitVec 32) := do
  let s ← get
  match s.ap with
  | .int v :: ap => do
    modify fun s => { s with ap := ap }
    pure v
  | _ => stop .args

def vaStr : M (Option CString) := do
  let s ← get
  match s.ap with
  | .str p :: ap => do
    modify fun s => { s with ap := ap }
    pure p
  | _ => stop .args

def putc (c : Byte) : M Unit := modify fun s => { s with out := s.out ++ [c] }

def addLen (n : Nat) : M Unit := modify fun s => { s with resLen := s.resLen + BitVec.ofNat 32 n }

/-- `char tmp[10] = {0}` after `itoa`, and the length that `itoa` returns. -/
def numberBuffer (d : BitVec 32) (radix : Nat) : M (List Byte × Nat) := do
  let text ← itoa d radix
  check (text.length ≤ 10) .outside
  pure (text ++ List.replicate (10 - text.length) 0, text.length)

/-- The loop that both formatters make over the format. -/
def walk (convert put : Byte → M Unit) : Bool → List Byte → M Unit
  | _, [] => pure ()
  | seenMark, c :: fmt =>
    if c = chr '%' ∧ seenMark = false then walk convert put true fmt
    else do
      if seenMark = true then convert c else put c
      walk convert put false fmt

/-! ## lvasprintf -/

def nullText : List Byte := ['(', 'n', 'u', 'l', 'l', ')'].map chr

def putAll : List Byte → M Unit
  | [] => pure ()
  | c :: cs => do
    putc c
    putAll cs

/-- `while (*p_tmp)`. -/
def putTmp : List Byte → M Unit
  | [] => stop .outside
  | c :: cs =>
    if c = 0 then pure ()
    else do
      putc c
      putTmp cs

def putOne (c : Byte) : M Unit := do
  putc c
  addLen 1

def putNumber (radix : Nat) : M Unit := do
  let d ← vaInt
  let (tmp, tlen) ← numberBuffer d radix
  putTmp tmp
  addLen tlen

def convert (c : Byte) : M Unit :=
  if c = chr 's' then do
    let p ← vaStr
    let s := match p with
      | none => nullText
      | some s => s.chars
    putAll s
    addLen s.length
  else if c = chr 'd' then putNumber 10
  else if c = chr 'x' then putNumber 16
  else if c = chr 'c' then do
    let v ← vaInt
    putOne (v.setWidth 8)
  else putOne c

def lvasprintf (fmt : List Byte) : M Unit := walk convert putOne false fmt

/-- What is written and what is returned. -/
def printf (fmt : CString) (args : List Arg) : Except Fault (List Byte × BitVec 32) :=
  (lvasprintf fmt.chars ⟨args, [], 0⟩).map fun r => (r.2.out, r.2.resLen)

/-! ## mvsprintf -/

/-- A zero ends the copy and fills the rest. -/
def strncpy : List Byte → Nat → M Unit
  | _, 0 => pure ()
  | [], _ + 1 => stop .outside
  | c :: src, count + 1 =>
    if c = 0 then putAll (List.replicate (count + 1) 0)
    else do
      putc c
      strncpy src count

def strlen (str : List Byte) : Nat := (str.takeWhile (· ≠ 0)).length

def storeNumber (radix : Nat) : M Unit := do
  let d ← vaInt
  let (tmp, tlen) ← numberBuffer d radix
  strncpy tmp tlen

def storeConverted (c : Byte) : M Unit :=
  if c = chr 's' then do
    match ← vaStr with
    | none => stop .null
    | some s => strncpy (s.chars ++ [0]) s.chars.length
  else if c = chr 'd' then storeNumber 10
  else if c = chr 'x' then storeNumber 16
  else if c = chr 'c' then do
    let v ← vaInt
    putc (v.setWidth 8)
  else putc c

def mvsprintf (fmt : List Byte) : M (BitVec 32) := do
  walk storeConverted putc false fmt
  putc 0
  let s ← get
  pure (BitVec.ofNat 32 (strlen s.out))

/-- What is stored and what is returned. -/
def sprintf (fmt : CString) (args : List Arg) : Except Fault (List Byte × BitVec 32) :=
  (mvsprintf fmt.chars ⟨args, [], 0⟩).map fun r => (r.2.out, r.1)

/-! ## The language of formats -/

/-- A piece of the output. -/
inductive Item where
  | lit (c : Byte)
  | str (s : Option CString)
  | dec (v : BitVec 32)
  | hex (v : BitVec 32)
  | chr (v : BitVec 32)

/-- The list of arguments is the one that the format asks for. -/
inductive Matches : List Byte → List Arg → List Item → Prop
  | nil : Matches [] [] []
  /-- A single mark at the end stands for nothing. -/
  | mark : Matches [chr '%'] [] []
  | plain {c : Byte} {fmt : List Byte} {args : List Arg} {is : List Item} : c ≠ chr '%' →
    Matches fmt args is → Matches (c :: fmt) args (.lit c :: is)
  | str {s : Option CString} {fmt : List Byte} {args : List Arg} {is : List Item} :
    Matches fmt args is → Matches (chr '%' :: chr 's' :: fmt) (.str s :: args) (.str s :: is)
  | dec {v : BitVec 32} {fmt : List Byte} {args : List Arg} {is : List Item} :
    Matches fmt args is → Matches (chr '%' :: chr 'd' :: fmt) (.int v :: args) (.dec v :: is)
  | hex {v : BitVec 32} {fmt : List Byte} {args : List Arg} {is : List Item} :
    Matches fmt args is → Matches (chr '%' :: chr 'x' :: fmt) (.int v :: args) (.hex v :: is)
  | chr {v : BitVec 32} {fmt : List Byte} {args : List Arg} {is : List Item} :
    Matches fmt args is → Matches (chr '%' :: chr 'c' :: fmt) (.int v :: args) (.chr v :: is)
  | other {c : Byte} {fmt : List Byte} {args : List Arg} {is : List Item} :
    c ∉ ['s', 'd', 'x', 'c'].map chr → Matches fmt args is →
    Matches (chr '%' :: c :: fmt) args (.lit c :: is)

namespace Item

/-- The text of an item that can be formatted. -/
def text : Item → List Byte
  | lit c => [c]
  | str none => nullText
  | str (some s) => s.chars
  | dec v => numberText v 10
  | hex v => numberText v 16
  | chr v => [v.setWidth 8]

/-- What `lvasprintf` puts, if it stays in its buffer. -/
def printed (i : Item) : Option (List Byte) :=
  match i with
  | dec v => if -100000000 < v.toInt ∧ v.toInt < 1000000000 then some i.text else none
  | i => some i.text

/-- What `mvsprintf` stores. -/
def stored (i : Item) : Option (List Byte) :=
  match i with
  | dec v => if (numberText v 10).length ≤ 10 then some i.text else none
  | str none => none
  | i => some i.text

/-- Items that both formatters treat alike. -/
def Plain : Item → Prop
  | lit _ | hex _ => True
  | str s => s ≠ none
  | dec v => -100000000 < v.toInt ∧ v.toInt < 1000000000
  | chr v => v.setWidth 8 ≠ (0 : Byte)

end Item

/-- The texts of all items, if each has one. -/
def allOf (f : Item → Option (List Byte)) : List Item → Option (List Byte)
  | [] => some []
  | i :: is => (f i).bind fun a => (allOf f is).map (a ++ ·)

/-- Both write the same bytes and return their number; `sprintf` adds the terminating zero. -/
def Agree (fmt : CString) (args : List Arg) : Prop :=
  ∃ out n, printf fmt args = .ok (out, n) ∧ sprintf fmt args = .ok (out ++ [0], n) ∧
    n.toNat = out.length

/-! ## The loops over characters -/

section Loops
variable {cs : List Byte} {n : Nat} {s : State}

theorem putAll_eq : putAll cs s = .ok ((), { s with out := s.out ++ cs }) := by
  induction cs generalizing s with
  | nil =>
    rw [List.append_nil]
    rfl
  | cons c cs ih =>
    rw [putAll, putc, bind_ok (modify_apply _ s), ih, List.append_assoc]
    rfl

theorem putTmp_eq (hz : ∀ c ∈ cs, c ≠ 0) :
    putTmp (cs ++ List.replicate (n + 1) 0) s = .ok ((), { s with out := s.out ++ cs }) := by
  induction cs generalizing s with
  | nil =>
    rw [List.append_nil]
    rfl
  | cons c cs ih =>
    rw [List.cons_append, putTmp, if_neg (hz c (by simp)), putc, bind_ok (modify_apply _ s),
      ih fun c hc => hz c (List.mem_cons_of_mem _ hc), List.append_assoc]
    rfl

/-- Without a zero the loop leaves the buffer. -/
theorem putTmp_outside (hz : ∀ c ∈ cs, c ≠ 0) : putTmp cs s = .error .outside := by
  induction cs generalizing s with
  | nil => rfl
  | cons c cs ih =>
    rw [putTmp, if_neg (hz c (by simp)), putc, bind_ok (modify_apply _ s),
      ih fun c hc => hz c (List.mem_cons_of_mem _ hc)]

theorem strncpy_eq {rest : List Byte} (hz : ∀ c ∈ cs, c ≠ 0) :
    strncpy (cs ++ rest) cs.length s = .ok ((), { s with out := s.out ++ cs }) := by
  induction cs generalizing s with
  | nil =>
    rw [List.append_nil, List.length_nil]
    cases rest <;> rfl
  | cons c cs ih =>
    rw [List.cons_append, List.length_cons, strncpy, if_neg (hz c (by simp)), putc,
      bind_ok (modify_apply _ s), ih fun c hc => hz c (List.mem_cons_of_mem _ hc),
      List.append_assoc]
    rfl

variable {radix : Nat} {d : BitVec 32}

theorem numberBuffer_eq (hr : radix = 10 ∨ radix = 16) (hl : (numberText d radix).length ≤ 10) :
    numberBuffer d radix s = .ok ((numberText d radix ++
      List.replicate (10 - (numberText d radix).length) 0, (numberText d radix).length), s) := by
  rw [numberBuffer, bind_ok (itoa_eq hr d), check_bind hl]
  rfl

theorem numberBuffer_outside (hr : radix = 10 ∨ radix = 16)
    (hl : ¬ (numberText d radix).length ≤ 10) : numberBuffer d radix s = .error .outside := by
  rw [numberBuffer, bind_ok (itoa_eq hr d), check, if_neg hl]
  rfl

end Loops

/-! ## What a part of a formatter emits -/

/-- From the arguments `as` the part leads to the arguments `as'` and puts `o`, or does not return;
`k` is what it counts. -/
def Emits (k : Nat → BitVec 32) (m : M Unit) (as as' : List Arg) (o : Option (List Byte)) : Prop :=
  ∀ out n t, m ⟨as, out, n⟩ = .ok ((), t) ↔ ∃ bs, o = some bs ∧ t = ⟨as', out ++ bs, n + k bs.length⟩

section Emits
variable {k : Nat → BitVec 32} {m m' : M Unit} {as as' as'' : List Arg} {o o' : Option (List Byte)}
  {bs : List Byte}

theorem emits_of_ok (h : ∀ out n, m ⟨as, out, n⟩ = .ok ((), ⟨as', out ++ bs, n + k bs.length⟩)) :
    Emits k m as as' (some bs) := by
  intro out n t
  rw [h]
  constructor
  · intro ht
    cases ht
    exact ⟨bs, rfl, rfl⟩
  · rintro ⟨_, hb, rfl⟩
    cases hb
    rfl

theorem emits_of_error {e : Fault} (h : ∀ out n, m ⟨as, out, n⟩ = .error e) :
    Emits k m as as' none := by
  intro out n t
  rw [h]
  exact iff_of_false nofun fun ⟨_, hb, _⟩ => nomatch hb

theorem Emits.bind (hk : ∀ a b, k (a + b) = k a + k b) (h : Emits k m as as' o)
    (h' : Emits k m' as' as'' o') :
    Emits k (m >>= fun _ => m') as as'' (o.bind fun a => o'.map (a ++ ·)) := by
  intro out n t
  rw [bind_eq_ok]
  constructor
  · rintro ⟨_, u, hu, ht⟩
    obtain ⟨a, rfl, rfl⟩ := (h out n u).mp hu
    obtain ⟨b, rfl, rfl⟩ := (h' _ _ t).mp ht
    exact ⟨a ++ b, rfl, by rw [List.length_append, hk, List.append_assoc, BitVec.add_assoc]⟩
  · rintro ⟨bs, hb, rfl⟩
    obtain ⟨a, rfl, hb⟩ := Option.bind_eq_some_iff.mp hb
    obtain ⟨b, rfl, rfl⟩ := Option.map_eq_some_iff.mp hb
    refine ⟨(), _, (h out n _).mpr ⟨a, rfl, rfl⟩, (h' _ _ _).mpr ⟨b, rfl, ?_⟩⟩
    rw [List.length_append, hk, List.append_assoc, BitVec.add_assoc]

end Emits

/-- A formatter puts each item as `f` says. -/
structure Formats (k : Nat → BitVec 32) (convert put : Byte → M Unit)
    (f : Item → Option (List Byte)) : Prop where
  put : ∀ c as, Emits k (put c) as as (f (.lit c))
  str : ∀ s as, Emits k (convert (chr 's')) (.str s :: as) as (f (.str s))
  dec : ∀ v as, Emits k (convert (chr 'd')) (.int v :: as) as (f (.dec v))
  hex : ∀ v as, Emits k (convert (chr 'x')) (.int v :: as) as (f (.hex v))
  chr : ∀ v as, Emits k (convert (Libc.chr 'c')) (.int v :: as) as (f (.chr v))
  other : ∀ c as, c ∉ ['s', 'd', 'x', 'c'].map Libc.chr → Emits k (convert c) as as (f (.lit c))

section Walks
variable {convert put : Byte → M Unit} {c : Byte} {fmt : List Byte}

theorem walk_mark : walk convert put false (chr '%' :: fmt) = walk convert put true fmt := by
  rw [walk, if_pos ⟨rfl, rfl⟩]

theorem walk_convert :
    walk convert put true (c :: fmt) = (convert c >>= fun _ => walk convert put false fmt) := by
  rw [walk, if_neg (fun h => absurd h.2 (by decide)), if_pos rfl]

theorem walk_put (hc : c ≠ chr '%') :
    walk convert put false (c :: fmt) = (put c >>= fun _ => walk convert put false fmt) := by
  rw [walk, if_neg (fun h => hc h.1), if_neg (by decide)]

/-- Over a format that matches its arguments the items are put one after the other. -/
theorem Formats.walk {k : Nat → BitVec 32} {f : Item → Option (List Byte)} {args : List Arg}
    {is : List Item} (hf : Formats k convert put f) (hk : ∀ a b, k (a + b) = k a + k b)
    (h : Matches fmt args is) : Emits k (walk convert put false fmt) args [] (allOf f is) := by
  have hk0 : k 0 = 0 := by
    have := hk 0 0
    simpa using this
  have hnil : ∀ b, Emits k (Libc.walk convert put b []) [] [] (some []) := by
    intro b
    refine emits_of_ok fun out n => ?_
    rw [List.append_nil, List.length_nil, hk0, show n + (0 : BitVec 32) = n from BitVec.add_zero n]
    cases b <;> rfl
  induction h with
  | nil => exact hnil false
  | mark =>
    rw [walk_mark]
    exact hnil true
  | plain hc _ ih =>
    rw [walk_put hc]
    exact (hf.put _ _).bind hk ih
  | str _ ih =>
    rw [walk_mark, walk_convert]
    exact (hf.str _ _).bind hk ih
  | dec _ ih =>
    rw [walk_mark, walk_convert]
    exact (hf.dec _ _).bind hk ih
  | hex _ ih =>
    rw [walk_mark, walk_convert]
    exact (hf.hex _ _).bind hk ih
  | chr _ ih =>
    rw [walk_mark, walk_convert]
    exact (hf.chr _ _).bind hk ih
  | other hc _ ih =>
    rw [walk_mark, walk_convert]
    exact (hf.other _ _ hc).bind hk ih

end Walks

/-! ## The two formatters -/

section Converted
variable {radix : Nat} {v : BitVec 32} {as : List Arg}

theorem putOne_emits (c : Byte) (as : List Arg) :
    Emits (BitVec.ofNat 32) (putOne c) as as (some [c]) :=
  emits_of_ok fun _ _ => rfl

theorem putc_emits (c : Byte) (as : List Arg) : Emits (fun _ => 0) (putc c) as as (some [c]) :=
  emits_of_ok fun out n => by
    rw [show n + (0 : BitVec 32) = n from BitVec.add_zero n]
    rfl

/-- A number with room for a zero behind it is put. -/
theorem putNumber_emits (hr : radix = 10 ∨ radix = 16) (hl : (numberText v radix).length ≤ 9) :
    Emits (BitVec.ofNat 32) (putNumber radix) (.int v :: as) as (some (numberText v radix)) := by
  have hz : ∀ c ∈ numberText v radix, c ≠ 0 := by
    rcases hr with rfl | rfl <;> exact numberText_ne_zero (by decide) (by decide) v
  obtain ⟨p, hp⟩ := Nat.exists_eq_add_of_le hl
  refine emits_of_ok fun out n => ?_
  have hv : vaInt ⟨.int v :: as, out, n⟩ = .ok (v, ⟨as, out, n⟩) := rfl
  have hpad : 10 - (numberText v radix).length = p + 1 := by omega
  rw [putNumber, bind_ok hv, bind_ok (numberBuffer_eq hr (by omega)), hpad]
  simp only
  rw [bind_ok (putTmp_eq hz)]
  rfl

/-- A number that fills the buffer or more is not. -/
theorem putNumber_outside (hr : radix = 10 ∨ radix = 16)
    (hl : ¬ (numberText v radix).length ≤ 9) :
    Emits (BitVec.ofNat 32) (putNumber radix) (.int v :: as) as none := by
  have hz : ∀ c ∈ numberText v radix, c ≠ 0 := by
    rcases hr with rfl | rfl <;> exact numberText_ne_zero (by decide) (by decide) v
  refine emits_of_error (e := .outside) fun out n => ?_
  have hv : vaInt ⟨.int v :: as, out, n⟩ = .ok (v, ⟨as, out, n⟩) := rfl
  rw [putNumber, bind_ok hv]
  by_cases h10 : (numberText v radix).length ≤ 10
  · rw [bind_ok (numberBuffer_eq hr h10), show 10 - (numberText v radix).length = 0 by omega]
    simp only [List.replicate_zero, List.append_nil]
    exact bind_error (putTmp_outside hz)
  · exact bind_error (numberBuffer_outside hr h10)

theorem storeNumber_emits (hr : radix = 10 ∨ radix = 16) :
    Emits (fun _ => 0) (storeNumber radix) (.int v :: as) as
      (if (numberText v radix).length ≤ 10 then some (numberText v radix) else none) := by
  have hz : ∀ c ∈ numberText v radix, c ≠ 0 := by
    rcases hr with rfl | rfl <;> exact numberText_ne_zero (by decide) (by decide) v
  have hv : ∀ out n, vaInt ⟨.int v :: as, out, n⟩ = .ok (v, ⟨as, out, n⟩) := fun _ _ => rfl
  split
  · next h10 =>
    refine emits_of_ok fun out n => ?_
    rw [storeNumber, bind_ok (hv out n), bind_ok (numberBuffer_eq hr h10)]
    simp only
    rw [strncpy_eq hz, show n + (0 : BitVec 32) = n from BitVec.add_zero n]
  · next h10 =>
    refine emits_of_error (e := .outside) fun out n => ?_
    rw [storeNumber, bind_ok (hv out n), bind_error (numberBuffer_outside hr h10)]

theorem other_ne {c : Byte} (hc : c ∉ ['s', 'd', 'x', 'c'].map chr) :
    c ≠ chr 's' ∧ c ≠ chr 'd' ∧ c ≠ chr 'x' ∧ c ≠ chr 'c' := by
  simpa using hc

theorem formats_lvasprintf : Formats (BitVec.ofNat 32) convert putOne Item.printed := by
  constructor
  case put => exact putOne_emits
  case str =>
    intro s as
    have hrun : ∀ out n, convert (chr 's') ⟨.str s :: as, out, n⟩ =
        .ok ((), ⟨as, out ++ (Item.str s).text, n + BitVec.ofNat 32 (Item.str s).text.length⟩) := by
      intro out n
      have hv : vaStr ⟨.str s :: as, out, n⟩ = .ok (s, ⟨as, out, n⟩) := rfl
      rw [convert, if_pos rfl, bind_ok hv]
      cases s <;> exact bind_ok putAll_eq
    exact emits_of_ok hrun
  case dec =>
    intro v as
    rw [show convert (chr 'd') = putNumber 10 from rfl, Item.printed, Item.text]
    split
    · next hv => exact putNumber_emits (.inl rfl) ((decText_length v).mpr hv)
    · next hv => exact putNumber_outside (.inl rfl) fun hl => hv ((decText_length v).mp hl)
  case hex =>
    intro v as
    exact putNumber_emits (.inr rfl) (Nat.le_succ_of_le (hexText_length v))
  case chr => exact fun v as => emits_of_ok fun _ _ => rfl
  case other =>
    intro c as hc
    obtain ⟨h1, h2, h3, h4⟩ := other_ne hc
    rw [convert, if_neg h1, if_neg h2, if_neg h3, if_neg h4]
    exact putOne_emits c as

theorem formats_mvsprintf : Formats (fun _ => 0) storeConverted putc Item.stored := by
  constructor
  case put => exact putc_emits
  case str =>
    intro s as
    have hv : ∀ out n, vaStr ⟨.str s :: as, out, n⟩ = .ok (s, ⟨as, out, n⟩) := fun _ _ => rfl
    cases s with
    | none =>
      refine emits_of_error (e := .null) fun out n => ?_
      rw [storeConverted, if_pos rfl, bind_ok (hv out n)]
      rfl
    | some s =>
      refine emits_of_ok fun out n => ?_
      rw [storeConverted, if_pos rfl, bind_ok (hv out n)]
      simp only
      rw [strncpy_eq fun c hc h0 => s.nonzero (h0 ▸ hc),
        show n + (0 : BitVec 32) = n from BitVec.add_zero n]
      rfl
  case dec => exact fun v as => storeNumber_emits (.inl rfl)
  case hex =>
    intro v as
    have hl : (numberText v 16).length ≤ 10 := (hexText_length v).trans (by decide)
    have hs : Emits _ (storeNumber 16) (.int v :: as) as _ := storeNumber_emits (.inr rfl)
    rw [if_pos hl] at hs
    exact hs
  case chr =>
    intro v as
    refine emits_of_ok fun out n => ?_
    rw [show n + (0 : BitVec 32) = n from BitVec.add_zero n]
    rfl
  case other =>
    intro c as hc
    obtain ⟨h1, h2, h3, h4⟩ := other_ne hc
    rw [storeConverted, if_neg h1, if_neg h2, if_neg h3, if_neg h4]
    exact putc_emits c as

end Converted

/-! ## Agreement -/

section Agreement
variable {fmt : CString} {args : List Arg} {is : List Item} {out : List Byte} {n : BitVec 32}

theorem printf_iff (h : Matches fmt.chars args is) :
    printf fmt args = .ok (out, n) ↔
      allOf Item.printed is = some out ∧ n = BitVec.ofNat 32 out.length := by
  have hw := formats_lvasprintf.walk (fun a b => BitVec.ofNat_add a b) h [] 0
  unfold printf
  constructor
  · intro hp
    obtain ⟨_, t, ht, he⟩ := ok_of_map hp
    obtain ⟨bs, hb, rfl⟩ := (hw t).mp ht
    cases he
    exact ⟨hb, BitVec.zero_add _⟩
  · rintro ⟨hb, rfl⟩
    have ht := (hw _).mpr ⟨out, hb, rfl⟩
    rw [lvasprintf, ht]
    exact congrArg (fun x => Except.ok (out, x)) (BitVec.zero_add _)

theorem sprintf_iff (h : Matches fmt.chars args is) :
    sprintf fmt args = .ok (out ++ [0], n) ↔
      allOf Item.stored is = some out ∧ n = BitVec.ofNat 32 (strlen (out ++ [0])) := by
  have hw := formats_mvsprintf.walk (fun _ _ => rfl) h [] 0
  unfold sprintf
  constructor
  · intro hp
    obtain ⟨a, t, ht, he⟩ := ok_of_map hp
    obtain ⟨_, u, hu, ht⟩ := bind_eq_ok.mp ht
    obtain ⟨bs, hb, rfl⟩ := (hw u).mp hu
    cases ht
    obtain ⟨ho, rfl⟩ := Prod.mk.inj he
    have hout : bs = out := List.append_cancel_right ho
    refine ⟨hout ▸ hb, ?_⟩
    rw [← ho]
  · rintro ⟨hb, rfl⟩
    have ht := (hw _).mpr ⟨out, hb, rfl⟩
    rw [mvsprintf, bind_ok ht]
    rfl

/-- The terminating zero is found where it was put exactly if no other was put. -/
theorem strlen_le (cs : List Byte) : strlen (cs ++ [0]) ≤ cs.length ∧
    (strlen (cs ++ [0]) = cs.length ↔ ∀ c ∈ cs, c ≠ 0) := by
  induction cs with
  | nil => exact ⟨Nat.le_refl 0, by simp [strlen]⟩
  | cons c cs ih =>
    unfold strlen at *
    rw [List.cons_append, List.takeWhile_cons]
    by_cases hc : c = 0
    · subst hc
      exact ⟨Nat.zero_le _, by simp⟩
    · have hd : decide (c ≠ 0) = true := decide_eq_true hc
      rw [if_pos hd, List.length_cons, List.length_cons]
      refine ⟨Nat.succ_le_succ ih.1, ?_⟩
      rw [Nat.succ_inj, ih.2, List.forall_mem_cons]
      exact ⟨fun h => ⟨hc, h⟩, fun h => h.2⟩

theorem allOf_cons {f : Item → Option (List Byte)} {i : Item} :
    allOf f (i :: is) = some out ↔ ∃ a b, f i = some a ∧ allOf f is = some b ∧ out = a ++ b := by
  simp only [allOf, Option.bind_eq_some_iff, Option.map_eq_some_iff, eq_comm (a := out)]
  constructor
  · rintro ⟨a, ha, b, hb, he⟩
    exact ⟨a, b, ha, hb, he⟩
  · rintro ⟨a, b, ha, hb, he⟩
    exact ⟨a, ha, b, hb, he⟩

theorem Item.printed_dec (v : BitVec 32) : (Item.dec v).printed =
    if -100000000 < v.toInt ∧ v.toInt < 1000000000 then some (numberText v 10) else none := rfl

theorem Item.stored_dec (v : BitVec 32) : (Item.dec v).stored =
    if (numberText v 10).length ≤ 10 then some (numberText v 10) else none := rfl

theorem Item.text_of_printed {i : Item} {a : List Byte} (h : i.printed = some a) : a = i.text := by
  cases i with
  | dec v =>
    rw [printed_dec] at h
    split at h <;> cases h
    rfl
  | _ =>
    cases h
    rfl

/-- A format that both accept, with no zero in the output, has plain items only. -/
theorem plain_of_agree (hp : allOf Item.printed is = some out) (hs : allOf Item.stored is = some out)
    (hz : ∀ c ∈ out, c ≠ 0) : (∀ i ∈ is, i.Plain) ∧ out = is.flatMap Item.text := by
  induction is generalizing out with
  | nil =>
    cases hp
    exact ⟨fun i hi => (nomatch hi), rfl⟩
  | cons i is ih =>
    obtain ⟨a, b, ha, hb, rfl⟩ := allOf_cons.mp hp
    obtain ⟨a', b', ha', hb', he⟩ := allOf_cons.mp hs
    have hat := Item.text_of_printed ha
    have hza : ∀ c ∈ i.text, c ≠ 0 := fun c hc => hz c (List.mem_append_left _ (hat ▸ hc))
    have hplain : i.Plain ∧ a' = i.text := by
      cases i with
      | lit c =>
        cases ha'
        exact ⟨trivial, rfl⟩
      | str s =>
        cases s with
        | none => cases ha'
        | some s =>
          cases ha'
          exact ⟨nofun, rfl⟩
      | dec v =>
        rw [Item.printed_dec] at ha
        rw [Item.stored_dec] at ha'
        split at ha
        · next hv =>
          split at ha' <;> cases ha'
          exact ⟨hv, rfl⟩
        · cases ha
      | hex v =>
        cases ha'
        exact ⟨trivial, rfl⟩
      | chr v =>
        cases ha'
        exact ⟨hza _ (by simp [Item.text]), rfl⟩
    rw [hplain.2, hat, List.append_cancel_left_eq] at he
    obtain ⟨hall, hbt⟩ := ih hb (he ▸ hb') fun c hc => hz c (List.mem_append_right _ hc)
    exact ⟨List.forall_mem_cons.mpr ⟨hplain.1, hall⟩, by rw [List.flatMap_cons, hat, hbt]⟩

theorem Item.Plain.both {i : Item} (h : i.Plain) :
    i.printed = some i.text ∧ i.stored = some i.text := by
  cases i with
  | lit c => exact ⟨rfl, rfl⟩
  | str s =>
    cases s with
    | none => exact absurd rfl h
    | some s => exact ⟨rfl, rfl⟩
  | dec v => exact ⟨if_pos h, if_pos (((decText_length v).mpr h).trans (by decide))⟩
  | hex v => exact ⟨rfl, rfl⟩
  | chr v => exact ⟨rfl, rfl⟩

/-- Only a literal zero, which a format does not have, would be a zero of a plain item. -/
theorem Item.Plain.nonzero {i : Item} (h : i.Plain) (hl : i ≠ .lit 0) : ∀ c ∈ i.text, c ≠ 0 := by
  intro c hc
  cases i with
  | lit d =>
    obtain rfl := List.mem_singleton.mp hc
    exact fun h0 => hl (h0 ▸ rfl)
  | str s =>
    cases s with
    | none => exact absurd rfl h
    | some s => exact fun h0 => s.nonzero (h0 ▸ hc)
  | dec v => exact numberText_ne_zero (by decide) (by decide) v c hc
  | hex v => exact numberText_ne_zero (by decide) (by decide) v c hc
  | chr v =>
    obtain rfl := List.mem_singleton.mp hc
    exact h

theorem Matches.lit_ne_zero {fmt : List Byte} (h : Matches fmt args is) (hz : 0 ∉ fmt) :
    .lit 0 ∉ is := by
  induction h with
  | nil | mark => exact List.not_mem_nil
  | plain _ _ ih =>
    rw [List.mem_cons, not_or] at hz ⊢
    exact ⟨fun he => hz.1 (Item.lit.inj he), ih hz.2⟩
  | str _ ih | dec _ ih | hex _ ih | chr _ ih =>
    rw [List.mem_cons, List.mem_cons, not_or, not_or] at hz
    rw [List.mem_cons, not_or]
    exact ⟨nofun, ih hz.2.2⟩
  | other _ _ ih =>
    rw [List.mem_cons, List.mem_cons, not_or, not_or] at hz
    rw [List.mem_cons, not_or]
    exact ⟨fun he => hz.2.1 (Item.lit.inj he), ih hz.2.2⟩

theorem allOf_plain (h : ∀ i ∈ is, i.Plain) : allOf Item.printed is = some (is.flatMap Item.text) ∧
    allOf Item.stored is = some (is.flatMap Item.text) := by
  induction is with
  | nil => exact ⟨rfl, rfl⟩
  | cons i is ih =>
    obtain ⟨hi, his⟩ := List.forall_mem_cons.mp h
    obtain ⟨hp, hs⟩ := ih his
    exact ⟨allOf_cons.mpr ⟨_, _, hi.both.1, hp, rfl⟩, allOf_cons.mpr ⟨_, _, hi.both.2, hs, rfl⟩⟩

/-- `printf` and `sprintf` agree exactly on plain items whose texts are not too long together. -/
theorem agree_iff (h : Matches fmt.chars args is) :
    Agree fmt args ↔ (∀ i ∈ is, i.Plain) ∧ (is.flatMap Item.text).length < 2 ^ 32 := by
  constructor
  · rintro ⟨out, n, hprint, hstore, hn⟩
    obtain ⟨hp, rfl⟩ := (printf_iff h).mp hprint
    obtain ⟨hs, hlen⟩ := (sprintf_iff h).mp hstore
    obtain ⟨hle, hiff⟩ := strlen_le out
    rw [BitVec.toNat_ofNat] at hn
    have hlt : out.length < 2 ^ 32 := hn ▸ Nat.mod_lt _ (by decide)
    have hlen' := congrArg BitVec.toNat hlen
    rw [BitVec.toNat_ofNat, BitVec.toNat_ofNat, hn, Nat.mod_eq_of_lt (hle.trans_lt hlt)] at hlen'
    obtain ⟨hall, hout⟩ := plain_of_agree hp hs (hiff.mp hlen'.symm)
    exact ⟨hall, hout ▸ hlt⟩
  · rintro ⟨hall, hlt⟩
    obtain ⟨hp, hs⟩ := allOf_plain hall
    have hlit := h.lit_ne_zero fmt.nonzero
    have hz : ∀ c ∈ is.flatMap Item.text, c ≠ 0 := by
      intro c hc
      obtain ⟨i, hi, hc⟩ := List.mem_flatMap.mp hc
      exact (hall i hi).nonzero (fun he => hlit (he ▸ hi)) c hc
    refine ⟨_, _, (printf_iff h).mpr ⟨hp, rfl⟩, (sprintf_iff h).mpr ⟨hs, ?_⟩, ?_⟩
    · rw [(strlen_le _).2.mpr hz]
    · rw [BitVec.toNat_ofNat, Nat.mod_eq_of_lt hlt]

end Agreement

/-- `"%d"` -/
def decFormat : CString := ⟨[chr '%', chr 'd'], by decide, by decide⟩

theorem agree_small : Agree decFormat [.int 7] :=
  (agree_iff (.dec .nil)).mpr ⟨fun i hi => by
    rw [List.mem_singleton.mp hi]
    exact (by decide : -100000000 < (7 : BitVec 32).toInt ∧ (7 : BitVec 32).toInt < 1000000000),
    by decide +kernel⟩

/-- The largest number fills the buffer, so that `printf` reads on behind it; the least one does not
even fit. -/
theorem extreme_numbers : ¬ Agree decFormat [.int 2147483647] ∧
    printf decFormat [.int 2147483647] = .error .outside ∧
    sprintf decFormat [.int 2147483648] = .error .outside := by
  have hp : printf decFormat [.int 2147483647] = .error .outside := by decide +kernel
  refine ⟨?_, hp, by decide +kernel⟩
  rintro ⟨out, n, h, -⟩
  rw [hp] at h
  cases h

end Frog.Libc
