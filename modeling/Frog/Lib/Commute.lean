import Frog.Lib.Prog

/-!
# What a program does not look at

A program commutes with a change of the state if it makes no difference whether the state is changed
before the program or after it. Two runs from states that differ by the change then end alike.
-/

set_option autoImplicit false

namespace Prog

variable {ε σ α β : Type} {f : σ → σ}

/-- An outcome with the state changed. -/
def afterwards (f : σ → σ) : Except ε (α × σ) → Except ε (α × σ)
  | .ok (a, t) => .ok (a, f t)
  | .error e => .error e

def Commutes (f : σ → σ) (m : Prog ε σ α) : Prop := ∀ s, m (f s) = afterwards f (m s)

theorem commutes_pure (a : α) : Commutes f (pure a : Prog ε σ α) := fun _ => rfl

theorem commutes_stop (e : ε) : Commutes f (stop e : Prog ε σ α) := fun _ => rfl

theorem commutes_modify {g : σ → σ} (h : ∀ s, g (f s) = f (g s)) :
    Commutes f (modify g : Prog ε σ Unit) := fun s => congrArg (fun t => Except.ok ((), t)) (h s)

theorem Commutes.bind {m : Prog ε σ α} {k : α → Prog ε σ β} (h : Commutes f m)
    (hk : ∀ a, Commutes f (k a)) : Commutes f (m >>= k) := by
  intro s
  rw [bind_apply, bind_apply, h s]
  cases m s with
  | error e => rfl
  | ok r => exact hk r.1 r.2

/-- What is read of the state is not what the change touches. -/
theorem commutes_get {k : σ → Prog ε σ α} (h : ∀ s, k (f s) = k s) (hk : ∀ s, Commutes f (k s)) :
    Commutes f (get >>= k) := by
  intro s
  have hrun : (get >>= k) (f s) = k (f s) (f s) := rfl
  rw [hrun, h s]
  exact hk s s

theorem commutes_ite {c : Prop} [Decidable c] {m m' : Prog ε σ α} (h : c → Commutes f m)
    (h' : ¬ c → Commutes f m') : Commutes f (if c then m else m') := by
  by_cases hc : c
  · rw [if_pos hc]
    exact h hc
  · rw [if_neg hc]
    exact h' hc

theorem commutes_check (c : Prop) [Decidable c] (e : ε) : Commutes f (check c e : Prog ε σ Unit) :=
  commutes_ite (fun _ => commutes_pure ()) fun _ => commutes_stop e

theorem commutes_need (o : Option α) (e : ε) : Commutes f (need o e : Prog ε σ α) := by
  cases o with
  | none => exact commutes_stop e
  | some a => exact commutes_pure a

attribute [grind ←] commutes_pure commutes_stop commutes_check commutes_need Commutes.bind

end Prog
