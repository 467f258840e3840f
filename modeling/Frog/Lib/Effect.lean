import Frog.Lib.Prog

/-!
# The effect of a program

A program stays within a relation on states if every run that returns relates its first state to its
last. What a relation says about the parts of a program it says about the whole once it is reflexive
and transitive.
-/

set_option autoImplicit false

namespace Prog

variable {ε σ α β : Type} {R : σ → σ → Prop}

def Within (R : σ → σ → Prop) (m : Prog ε σ α) : Prop := ∀ s a t, m s = .ok (a, t) → R s t

theorem Within.mono {R' : σ → σ → Prop} {m : Prog ε σ α} (h : Within R m)
    (hr : ∀ s t, R s t → R' s t) : Within R' m :=
  fun s a t hm => hr s t (h s a t hm)

/-- The parts of a sequence may stay within relations of their own. -/
theorem Within.comp {P Q : σ → σ → Prop} {m : Prog ε σ α} {f : α → Prog ε σ β} (h : Within P m)
    (hf : ∀ a, Within Q (f a)) (hr : ∀ s t u, P s t → Q t u → R s u) : Within R (m >>= f) := by
  intro s b u hm
  obtain ⟨a, t, hst, htu⟩ := bind_eq_ok.mp hm
  exact hr s t u (h s a t hst) (hf a t b u htu)

theorem within_modify {f : σ → σ} (h : ∀ s, R s (f s)) : Within R (modify f : Prog ε σ Unit) := by
  intro s a t hm
  cases hm
  exact h s

theorem within_stop (e : ε) : Within R (stop e : Prog ε σ α) := by
  intro s a t hm
  cases hm

theorem within_ite {c : Prop} [Decidable c] {m m' : Prog ε σ α} (h : c → Within R m)
    (h' : ¬ c → Within R m') : Within R (if c then m else m') := by
  by_cases hc : c
  · rw [if_pos hc]
    exact h hc
  · rw [if_neg hc]
    exact h' hc

theorem within_zoom {ε' τ : Type} {part : σ → τ} {put : σ → τ → σ} {err : ε' → ε} {m : Prog ε' τ α}
    (h : ∀ s t, R s (put s t)) : Within R (zoom part put err m) := by
  intro s a t hm
  unfold zoom at hm
  cases hr : m (part s) with
  | ok r =>
    rw [hr] at hm
    cases hm
    exact h s _
  | error e =>
    rw [hr] at hm
    cases hm

section Refl

variable [Std.Refl R]

theorem within_pure (a : α) : Within R (pure a : Prog ε σ α) := by
  intro s b t hm
  cases hm
  exact Std.Refl.refl s

theorem within_get : Within R (get : Prog ε σ σ) := by
  intro s b t hm
  cases hm
  exact Std.Refl.refl s

theorem within_check (c : Prop) [Decidable c] (e : ε) : Within R (check c e : Prog ε σ Unit) :=
  within_ite (fun _ => within_pure ()) fun _ => within_stop e

theorem within_need (o : Option α) (e : ε) : Within R (need o e : Prog ε σ α) := by
  cases o with
  | none => exact within_stop e
  | some a => exact within_pure a

end Refl

theorem Within.bind [IsTrans σ R] {m : Prog ε σ α} {f : α → Prog ε σ β} (h : Within R m)
    (hf : ∀ a, Within R (f a)) : Within R (m >>= f) :=
  h.comp hf fun s t u => IsTrans.trans s t u

/-- Runs that leave a part of the state as it is. -/
def SamePart {π : Type} (part : σ → π) (s t : σ) : Prop := part t = part s

instance {π : Type} (part : σ → π) : Std.Refl (SamePart part) := ⟨fun _ => rfl⟩

instance {π : Type} (part : σ → π) : IsTrans σ (SamePart part) := ⟨fun _ _ _ h h' => h'.trans h⟩

/-! ## What is returned -/

/-- Every value that `m` returns has `P`. -/
def Returns (P : α → Prop) (m : Prog ε σ α) : Prop := ∀ s a t, m s = .ok (a, t) → P a

theorem returns_pure {P : α → Prop} {a : α} (h : P a) : Returns P (pure a : Prog ε σ α) := by
  intro s b t hr
  cases hr
  exact h

/-- Only the last step matters. -/
theorem returns_bind {P : β → Prop} {m : Prog ε σ α} {f : α → Prog ε σ β}
    (hf : ∀ a, Returns P (f a)) : Returns P (m >>= f) := by
  intro s b u h
  obtain ⟨a, t, -, hr⟩ := bind_eq_ok.mp h
  exact hf a t b u hr

theorem returns_ite {P : α → Prop} {c : Prop} [Decidable c] {m m' : Prog ε σ α}
    (h : c → Returns P m) (h' : ¬ c → Returns P m') : Returns P (if c then m else m') := by
  by_cases hc : c
  · rw [if_pos hc]
    exact h hc
  · rw [if_neg hc]
    exact h' hc

theorem wp_of_returns {P : α → Prop} {m : Prog ε σ α} {s : σ} (h : Returns P m) :
    wp (fun _ => True) m (fun a _ => P a) s := by
  unfold wp
  split
  · exact h _ _ _ ‹_›
  · trivial

attribute [grind ←] Within.bind within_pure within_get within_check within_need within_stop
attribute [grind ←] within_modify

end Prog
