import Frog.Lib.RingList
import Mathlib.Logic.Function.Iterate

/-!
# Splicing circular lists

The nodes of one circular list are taken over into another, in front of its first node or behind its
last. The head they are taken from keeps its links and is linked to itself afterwards.
-/

set_option autoImplicit false

namespace Links

variable {α : Type} [DecidableEq α]

/-- Put the nodes of `g` in front of the first node of `h`. -/
def append (l : Links α) (g h : α) : Links α :=
  if l.isEmpty g then l
  else (((l.setNext h (l.next g)).setPrev (l.next h) (l.prev g)).setPrev (l.next g) h).setNext
    (l.prev g) (l.next h)

/-- Put the nodes of `g` behind the last node of `h`. -/
def appendTail (l : Links α) (g h : α) : Links α :=
  if l.isEmpty g then l
  else (((l.setPrev h (l.prev g)).setNext (l.prev h) (l.next g)).setPrev (l.next g)
    (l.prev h)).setNext (l.prev g) h

end Links

theorem LinkPath.prev_eq {α : Type} {l : Links α} {a b : α} {xs : List α} (p : LinkPath l a xs b) :
    l.prev b = xs.getLastD a := by
  induction xs generalizing a with
  | nil => exact p.2
  | cons x xs ih => rw [ih p.2.2, List.getLastD_cons]

namespace RingList

variable {α : Type} {l : Links α} {h g : α} {xs ys : List α}

theorem iterate_of_path {a b : α} (p : LinkPath l a xs b) : ∃ k, l.next^[k] a = b := by
  induction xs generalizing a with
  | nil => exact ⟨1, p.1⟩
  | cons x xs ih =>
    obtain ⟨k, hk⟩ := ih p.2.2
    exact ⟨k + 1, by rw [Function.iterate_succ_apply, p.1, hk]⟩

/-- The head and the nodes are linked both ways, and the head is reached from each of them. -/
theorem circular (r : RingList l h xs) :
    ∀ x ∈ h :: xs, l.prev (l.next x) = x ∧ l.next (l.prev x) = x ∧ ∃ k, l.next^[k] x = h := by
  have both : ∀ (a : α) (zs : List α) (b : α), LinkPath l a zs b →
      l.prev (l.next a) = a ∧ l.next (l.prev b) = b := by
    intro a zs
    induction zs generalizing a with
    | nil =>
      intro b p
      exact ⟨by rw [p.1, p.2], by rw [p.2, p.1]⟩
    | cons z zs ih =>
      intro b p
      exact ⟨by rw [p.1, p.2.1], (ih z b p.2.2).2⟩
  intro x hx
  rcases List.mem_cons.mp hx with rfl | hx
  · exact ⟨(both _ _ _ r.path).1, (both _ _ _ r.path).2, iterate_of_path r.path⟩
  · obtain ⟨us, vs, rfl⟩ := List.append_of_mem hx
    obtain ⟨h1, h2⟩ := Iff.mp LinkPath.append_iff r.path
    exact ⟨(both _ _ _ h2).1, (both _ _ _ h1).2, iterate_of_path h2⟩

/-- The sequence says what the links are. -/
theorem links_eq {l' : Links α} (r : RingList l h xs) (r' : RingList l' h xs) :
    ∀ x ∈ h :: xs, l'.next x = l.next x ∧ l'.prev x = l.prev x := by
  intro x hx
  rcases List.mem_cons.mp hx with rfl | hx
  · exact ⟨r'.path.next_eq.trans r.path.next_eq.symm, r'.path.prev_eq.trans r.path.prev_eq.symm⟩
  · obtain ⟨us, vs, rfl⟩ := List.append_of_mem hx
    obtain ⟨h1, h2⟩ := Iff.mp LinkPath.append_iff r.path
    obtain ⟨h3, h4⟩ := Iff.mp LinkPath.append_iff r'.path
    exact ⟨h4.next_eq.trans h2.next_eq.symm, h3.prev_eq.trans h1.prev_eq.symm⟩

section Splice
variable [DecidableEq α]

theorem append (r : RingList l h xs) (r' : RingList l g ys)
    (hd : List.Disjoint (h :: xs) (g :: ys)) : RingList (l.append g h) h (ys ++ xs) := by
  cases ys with
  | nil =>
    have he : l.isEmpty g = true := r'.isEmpty_iff.mpr rfl
    rwa [Links.append, if_pos he]
  | cons y ys =>
    have he : ¬ l.isEmpty g = true := by simp [r'.isEmpty_iff]
    rw [Links.append, if_neg he]
    obtain ⟨hy, -, p⟩ := r'.path
    obtain ⟨hyn, hdy⟩ := List.nodup_cons.mp (List.nodup_cons.mp r'.nodup).2
    have hlast : l.prev g ∈ g :: y :: ys := List.mem_cons_of_mem _ p.prev_mem
    have hfirst := r.next_mem
    have hapart : ∀ a ∈ h :: xs, ∀ b ∈ g :: y :: ys, a ≠ b := fun a ha b hb he => hd ha (he ▸ hb)
    have hhl : h ≠ l.prev g := hapart h (by simp) _ hlast
    have hyf : l.next h ≠ y := hapart _ hfirst y (by simp)
    rw [hy]
    -- the nodes taken over now end where the others begin
    have q : LinkPath ((((l.setNext h y).setPrev (l.next h) (l.prev g)).setPrev y h).setNext
        (l.prev g) (l.next h)) y ys (l.next h) := by
      apply p.retarget (List.nodup_cons.mpr ⟨hyn, hdy⟩)
      · intro x hx hxl
        have hxh : x ≠ h := (hapart h (by simp) x (List.mem_cons_of_mem _ hx)).symm
        simp [hxl, hxh]
      · intro x hx
        have hxy : x ≠ y := fun he => hyn (he ▸ hx)
        have hxf : x ≠ l.next h := (hapart _ hfirst x (by simp [hx])).symm
        simp [hxy, hxf]
      · simp
      · simp [hyf]
    refine ⟨⟨by simp [hhl], by simp, ?_⟩, ?_⟩
    · cases xs with
      | nil =>
        have hx : l.next h = h := r.path.1
        simpa [hx] using q
      | cons x xs =>
        have hx : l.next h = x := r.path.1
        rw [hx] at q ⊢
        obtain ⟨hh, hdx⟩ := List.nodup_cons.mp r.nodup
        refine Iff.mpr LinkPath.append_iff ⟨q, r.path.2.2.congr ?_ ?_⟩
        · intro z hz
          have hzh : z ≠ h := fun he => hh (he ▸ hz)
          have hzl : z ≠ l.prev g := hapart z (List.mem_cons_of_mem _ hz) _ hlast
          simp [hzh, hzl]
        · intro z hz
          have hzm : z ∈ h :: x :: xs := by
            rcases List.mem_append.mp hz with hz | hz
            · simp [hz]
            · simp [List.mem_singleton.mp hz]
          have hzy : z ≠ y := hapart z hzm y (by simp)
          have hzx : z ≠ x := by
            rintro rfl
            rcases List.mem_append.mp hz with hz | hz
            · exact (List.nodup_cons.mp hdx).1 hz
            · exact hh (by simp [List.mem_singleton.mp hz])
          simp [hzy, hzx]
    · have hdd : (h :: xs ++ y :: ys).Nodup :=
        r.nodup.append (List.nodup_cons.mp r'.nodup).2 fun a ha hb =>
          hd ha (List.mem_cons_of_mem _ hb)
      have hp : List.Perm (h :: (y :: ys ++ xs)) (h :: xs ++ y :: ys) :=
        List.Perm.cons h List.perm_append_comm
      exact hp.nodup_iff.mpr hdd

theorem appendTail (r : RingList l h xs) (r' : RingList l g ys)
    (hd : List.Disjoint (h :: xs) (g :: ys)) : RingList (l.appendTail g h) h (xs ++ ys) := by
  cases ys with
  | nil =>
    have he : l.isEmpty g = true := r'.isEmpty_iff.mpr rfl
    rwa [Links.appendTail, if_pos he, List.append_nil]
  | cons y ys =>
    have he : ¬ l.isEmpty g = true := by simp [r'.isEmpty_iff]
    rw [Links.appendTail, if_neg he]
    obtain ⟨hy, -, p⟩ := r'.path
    obtain ⟨hyn, hdy⟩ := List.nodup_cons.mp (List.nodup_cons.mp r'.nodup).2
    have hlast : l.prev g ∈ g :: y :: ys := List.mem_cons_of_mem _ p.prev_mem
    have hapart : ∀ a ∈ h :: xs, ∀ b ∈ g :: y :: ys, a ≠ b := fun a ha b hb he => hd ha (he ▸ hb)
    have hll : l.prev h ≠ l.prev g := hapart _ r.prev_mem _ hlast
    have hhy : h ≠ y := hapart h (by simp) y (by simp)
    rw [hy]
    refine ⟨Iff.mpr LinkPath.append_iff ⟨?_, ?_⟩, ?_⟩
    · apply r.path.retarget r.nodup
      · intro x hx hxl
        have hxg : x ≠ l.prev g := hapart x hx _ hlast
        simp [hxl, hxg]
      · intro x hx
        have hxy : x ≠ y := hapart x (List.mem_cons_of_mem _ hx) y (by simp)
        have hxh : x ≠ h := fun he => (List.nodup_cons.mp r.nodup).1 (he ▸ hx)
        simp [hxy, hxh]
      · simp [hll]
      · simp
    · apply p.retarget (List.nodup_cons.mpr ⟨hyn, hdy⟩)
      · intro x hx hxl
        have hxh : x ≠ l.prev h := (hapart _ r.prev_mem x (List.mem_cons_of_mem _ hx)).symm
        simp [hxl, hxh]
      · intro x hx
        have hxy : x ≠ y := fun he => hyn (he ▸ hx)
        have hxh : x ≠ h := (hapart h (by simp) x (by simp [hx])).symm
        simp [hxy, hxh]
      · simp
      · simp [hhy]
    · exact r.nodup.append (List.nodup_cons.mp r'.nodup).2 fun a ha hb =>
        hd ha (List.mem_cons_of_mem _ hb)

end Splice

end RingList

/-! ## Several lists of a family at once -/

namespace RingLists

variable {α ι : Type} {l l' : Links α} {head : ι → α} {L L' : ι → List α}

/-- The lists `T` exchange nodes among themselves; nothing else is touched. -/
theorem exchange {T : ι → Prop} (r : RingLists l head L)
    (hT : ∀ i, T i → RingList l' (head i) (L' i))
    (hap : ∀ i j, T i → T j → i ≠ j → List.Disjoint (head i :: L' i) (head j :: L' j))
    (hsub : ∀ i, T i → ∀ x ∈ head i :: L' i, ∃ k, T k ∧ x ∈ head k :: L k)
    (hout : ∀ i, ¬ T i → L' i = L i)
    (hk : ∀ x, (∀ k, T k → x ∉ head k :: L k) → l'.next x = l.next x ∧ l'.prev x = l.prev x) :
    RingLists l' head L' := by
  have hfar : ∀ i j, T i → ¬ T j → List.Disjoint (head i :: L' i) (head j :: L' j) := by
    intro i j hi hj x hx hm
    obtain ⟨k, hk, hxk⟩ := hsub i hi x hx
    rw [hout j hj] at hm
    exact r.apart k j (fun he => hj (he ▸ hk)) hxk hm
  constructor
  · intro i
    by_cases hi : T i
    · exact hT i hi
    · rw [hout i hi]
      have hx : ∀ x ∈ head i :: L i, l'.next x = l.next x ∧ l'.prev x = l.prev x := fun x hx =>
        hk x fun k hk hxk => r.apart k i (fun he => hi (he ▸ hk)) hxk hx
      exact (r.ring i).congr (fun x h => (hx x h).1) fun x h => (hx x h).2
  · intro i j hij
    by_cases hi : T i
    · by_cases hj : T j
      · exact hap i j hi hj hij
      · exact hfar i j hi hj
    · by_cases hj : T j
      · exact fun x hx hm => hfar j i hj hi hm hx
      · rw [hout i hi, hout j hj]
        exact r.apart i j hij

section Splice
variable [DecidableEq α] [DecidableEq ι] {i j : ι}

/-- The nodes of `j` go over to `i`, in the order `zs`. -/
theorem splice {zs : List α} (r : RingLists l head L) (hij : i ≠ j)
    (hz : RingList l' (head i) zs) (hp : ∀ x, x ∈ zs ↔ x ∈ L i ∨ x ∈ L j)
    (hk : ∀ x, x ∉ head i :: L i → x ∉ head j :: L j →
      l'.next x = l.next x ∧ l'.prev x = l.prev x) :
    RingLists (l'.initListHead (head j)) head
      (Function.update (Function.update L i zs) j []) := by
  have hji : head j ∉ head i :: zs := by
    intro hm
    have hj : head j ∈ head j :: L j := by simp
    rcases List.mem_cons.mp hm with hm | hm
    · exact r.apart j i hij.symm hj (by simp [hm])
    · rcases (hp _).mp hm with hm | hm
      · exact r.apart j i hij.symm hj (List.mem_cons_of_mem _ hm)
      · exact (List.nodup_cons.mp (r.ring j).nodup).1 hm
  have hi : Function.update (Function.update L i zs) j [] i = zs := by
    rw [Function.update_of_ne hij, Function.update_self]
  have hj : Function.update (Function.update L i zs) j [] j = [] := Function.update_self ..
  apply r.exchange (T := fun k => k = i ∨ k = j)
  · rintro k (rfl | rfl)
    · rw [hi]
      refine hz.congr ?_ ?_ <;>
      · intro x hx
        have hxj : x ≠ head j := fun he => hji (he ▸ hx)
        simp [Links.initListHead, hxj]
    · rw [hj]
      exact RingList.init l' _
  · rintro a b (rfl | rfl) (rfl | rfl) hab
    · exact absurd rfl hab
    · rw [hi, hj]
      exact fun x hx hm => hji (List.mem_singleton.mp hm ▸ hx)
    · rw [hi, hj]
      exact fun x hm hx => hji (List.mem_singleton.mp hm ▸ hx)
    · exact absurd rfl hab
  · rintro k (rfl | rfl) x hx
    · rw [hi] at hx
      rcases List.mem_cons.mp hx with rfl | hx
      · exact ⟨k, Or.inl rfl, by simp⟩
      · rcases (hp x).mp hx with hx | hx
        · exact ⟨k, Or.inl rfl, List.mem_cons_of_mem _ hx⟩
        · exact ⟨j, Or.inr rfl, List.mem_cons_of_mem _ hx⟩
    · rw [hj] at hx
      exact ⟨k, Or.inr rfl, by simp [List.mem_singleton.mp hx]⟩
  · intro k hk
    obtain ⟨hki, hkj⟩ := not_or.mp hk
    rw [Function.update_of_ne hkj, Function.update_of_ne hki]
  · intro x hx
    have hxi := hx i (Or.inl rfl)
    have hxj := hx j (Or.inr rfl)
    have hne : x ≠ head j := fun he => hxj (by simp [he])
    simp only [Links.initListHead, Links.setPrev_next, Links.setNext_next, Links.setPrev_prev,
      Links.setNext_prev, Function.update_of_ne hne]
    exact hk x hxi hxj

theorem append (r : RingLists l head L) (hij : i ≠ j) :
    RingLists ((l.append (head j) (head i)).initListHead (head j)) head
      (Function.update (Function.update L i (L j ++ L i)) j []) := by
  apply r.splice hij ((r.ring i).append (r.ring j) (r.apart i j hij))
  · intro x
    rw [List.mem_append, or_comm]
  · intro x hxi hxj
    have h1 : x ≠ head i := fun he => hxi (by simp [he])
    have h2 : x ≠ l.next (head i) := fun he => hxi (he ▸ (r.ring i).next_mem)
    have h3 : x ≠ l.next (head j) := fun he => hxj (he ▸ (r.ring j).next_mem)
    have h4 : x ≠ l.prev (head j) := fun he => hxj (he ▸ (r.ring j).prev_mem)
    rw [Links.append]
    split
    · exact ⟨rfl, rfl⟩
    · simp [h1, h2, h3, h4]

theorem appendTail (r : RingLists l head L) (hij : i ≠ j) :
    RingLists ((l.appendTail (head j) (head i)).initListHead (head j)) head
      (Function.update (Function.update L i (L i ++ L j)) j []) := by
  apply r.splice hij ((r.ring i).appendTail (r.ring j) (r.apart i j hij))
  · intro x
    rw [List.mem_append]
  · intro x hxi hxj
    have h1 : x ≠ head i := fun he => hxi (by simp [he])
    have h2 : x ≠ l.prev (head i) := fun he => hxi (he ▸ (r.ring i).prev_mem)
    have h3 : x ≠ l.next (head j) := fun he => hxj (he ▸ (r.ring j).next_mem)
    have h4 : x ≠ l.prev (head j) := fun he => hxj (he ▸ (r.ring j).prev_mem)
    rw [Links.appendTail]
    split
    · exact ⟨rfl, rfl⟩
    · simp [h1, h2, h3, h4]

end Splice

end RingLists
