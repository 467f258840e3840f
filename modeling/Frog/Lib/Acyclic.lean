import Mathlib.Data.List.Perm.Subperm
import Mathlib.Logic.Relation

/-!
# Graphs without cycles

What one more edge does to a graph without cycles, and walks in graphs where every node has at
most one successor.
-/

set_option autoImplicit false

open Relation

variable {α : Type} {r : α → α → Prop} {a b x y : α}

def Acyclic (r : α → α → Prop) : Prop := ∀ x, ¬ TransGen r x x

/-- The graph with the edge from `a` to `b` added. -/
def addEdge (r : α → α → Prop) (a b : α) : α → α → Prop := fun x y => r x y ∨ x = a ∧ y = b

namespace Acyclic

theorem mono {r' : α → α → Prop} (h : Acyclic r) (hr : ∀ x y, r' x y → r x y) : Acyclic r' :=
  fun x hx => h x (TransGen.mono hr _ _ hx)

end Acyclic

/-- A path that uses the new edge reaches its tail first and goes on from its head. -/
theorem transGen_addEdge (h : TransGen (addEdge r a b) x y) :
    TransGen r x y ∨ ReflTransGen r x a ∧ ReflTransGen r b y := by
  induction h with
  | single hxy =>
    rcases hxy with hr | ⟨rfl, rfl⟩
    · exact .inl (.single hr)
    · exact .inr ⟨.refl, .refl⟩
  | tail _ hyz ih =>
    rcases hyz with hr | ⟨rfl, rfl⟩
    · rcases ih with ht | ⟨hxa, hby⟩
      · exact .inl (ht.tail hr)
      · exact .inr ⟨hxa, hby.tail hr⟩
    · rcases ih with ht | ⟨hxa, -⟩
      · exact .inr ⟨ht.to_reflTransGen, .refl⟩
      · exact .inr ⟨hxa, .refl⟩

/-- An edge closes a cycle exactly when its tail was reachable from its head. -/
theorem Acyclic.addEdge_iff (h : Acyclic r) : Acyclic (addEdge r a b) ↔ ¬ ReflTransGen r b a := by
  constructor
  · intro hc hba
    have hab : TransGen (addEdge r a b) a b := .single (.inr ⟨rfl, rfl⟩)
    exact hc a (hab.trans_left (ReflTransGen.mono (fun _ _ hxy => Or.inl hxy) _ _ hba))
  · intro hba x hx
    rcases transGen_addEdge hx with hr | ⟨hxa, hbx⟩
    · exact h x hr
    · exact hba (hbx.trans hxa)

/-- From a node with one successor every path goes through it. -/
theorem transGen_of_unique (hxy : r x y) (hu : ∀ z, r x z → z = y) {z : α} :
    TransGen r x z ↔ y = z ∨ TransGen r y z := by
  constructor
  · intro h
    obtain ⟨w, hw, hwz⟩ := TransGen.head'_iff.mp h
    obtain rfl := hu w hw
    exact reflTransGen_iff_eq_or_transGen.mp hwz |>.imp Eq.symm id
  · rintro (rfl | h)
    · exact .single hxy
    · exact .head hxy h

theorem not_transGen_of_sink (hx : ∀ z, ¬ r x z) {z : α} : ¬ TransGen r x z := by
  intro h
  obtain ⟨w, hw, -⟩ := TransGen.head'_iff.mp h
  exact hx w hw

/-- Different members of a list are at most as many as its entries. -/
theorem length_le_of_nodup {xs ys : List α} (hn : xs.Nodup) (h : ∀ x ∈ xs, x ∈ ys) :
    xs.length ≤ ys.length :=
  (List.subperm_of_subset hn h).length_le

/-- A graph without cycles whose edges lead into a list: from every node a path leads to one that
no edge leaves. -/
theorem Acyclic.exists_sink (h : Acyclic r) {xs : List α} (hxs : ∀ x y, r x y → y ∈ xs) (x : α) :
    ∃ z, ReflTransGen r x z ∧ ∀ w, ¬ r z w := by
  -- the nodes passed so far are different, so there are at most as many as the list has
  suffices hwalk : ∀ n (visited : List α) x, visited.Nodup →
      (∀ v ∈ visited, v ∈ xs ∧ ReflTransGen r v x) → xs.length < n + visited.length →
      ∃ z, ReflTransGen r x z ∧ ∀ w, ¬ r z w from
    hwalk (xs.length + 1) [] x List.nodup_nil (fun _ hv => absurd hv List.not_mem_nil) (by simp)
  intro n
  induction n with
  | zero =>
    intro visited x hn hv hlen
    have := length_le_of_nodup hn fun v hvm => (hv v hvm).1
    omega
  | succ n ih =>
    intro visited x hn hv hlen
    by_cases hx : ∃ y, r x y
    · obtain ⟨y, hxy⟩ := hx
      have hfresh : y ∉ visited := fun hm =>
        h y (TransGen.trans_right (hv y hm).2 (.single hxy))
      have hv' : ∀ v ∈ y :: visited, v ∈ xs ∧ ReflTransGen r v y := by
        intro v hvm
        rcases List.mem_cons.mp hvm with rfl | hvm
        · exact ⟨hxs x v hxy, .refl⟩
        · exact ⟨(hv v hvm).1, (hv v hvm).2.tail hxy⟩
      obtain ⟨z, hyz, hz⟩ := ih (y :: visited) y (List.nodup_cons.mpr ⟨hfresh, hn⟩) hv'
        (by simp; omega)
      exact ⟨z, .head hxy hyz, hz⟩
    · exact ⟨x, .refl, fun w hw => hx ⟨w, hw⟩⟩
