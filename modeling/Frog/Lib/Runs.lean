import Mathlib.Logic.Basic
import Mathlib.Tactic.Push

/-!
# Runs

A run does a list of actions one after the other. Steps may be guarded by a condition on the
state before the step; what every guarded step preserves holds after every guarded run.
-/

set_option autoImplicit false

variable {σ α : Type}

inductive Run (step : σ → α → σ → Prop) : σ → List α → σ → Prop
  | nil (s : σ) : Run step s [] s
  | cons {s t u : σ} {a : α} {as : List α} : step s a t → Run step t as u → Run step s (a :: as) u

/-- The steps that start where `ok` holds. -/
def Guarded (ok : σ → α → Prop) (step : σ → α → σ → Prop) (s : σ) (a : α) (t : σ) : Prop :=
  ok s a ∧ step s a t

namespace Run

variable {step : σ → α → σ → Prop} {ok : σ → α → Prop} {s t : σ} {as : List α}

theorem single {a : α} (h : step s a t) : Run step s [a] t := .cons h (.nil t)

theorem append {u : σ} {bs : List α} (h : Run step s as t) (h' : Run step t bs u) :
    Run step s (as ++ bs) u := by
  induction h with
  | nil => exact h'
  | cons hst _ ih => exact .cons hst (ih h')

theorem split {u : σ} {bs : List α} (h : Run step s (as ++ bs) u) :
    ∃ t, Run step s as t ∧ Run step t bs u := by
  induction as generalizing s with
  | nil => exact ⟨s, .nil s, h⟩
  | cons a as ih =>
    cases h with
    | cons hst h =>
      obtain ⟨t, h1, h2⟩ := ih h
      exact ⟨t, .cons hst h1, h2⟩

/-- A function that computes steps computes runs. -/
theorem of_foldlM {next : σ → α → Option σ} (hnext : ∀ s a t, next s a = some t → step s a t)
    (h : as.foldlM next s = some t) : Run step s as t := by
  induction as generalizing s with
  | nil =>
    cases h
    exact .nil _
  | cons a as ih =>
    rw [List.foldlM_cons] at h
    obtain ⟨u, hu, h⟩ := Option.bind_eq_some_iff.mp h
    exact .cons (hnext s a u hu) (ih h)

theorem mono {step' : σ → α → σ → Prop} (h : Run step s as t)
    (hstep : ∀ s a t, step s a t → step' s a t) : Run step' s as t := by
  induction h with
  | nil => exact .nil _
  | cons hst _ ih => exact .cons (hstep _ _ _ hst) ih

theorem invariant {I : σ → Prop} (h : Run step s as t)
    (hstep : ∀ s a t, I s → step s a t → I t) (hs : I s) : I t := by
  induction h with
  | nil => exact hs
  | cons hst _ ih => exact ih (hstep _ _ _ hs hst)

theorem guarded_invariant {I : σ → Prop} (h : Run (Guarded ok step) s as t)
    (hstep : ∀ s a t, I s → ok s a → step s a t → I t) (hs : I s) : I t :=
  h.invariant (fun s a t hi hst => hstep s a t hi hst.1 hst.2) hs

end Run

/-- Actions that lower a rank which no other action raises stop at some point of an endless run. -/
theorem eventually_quiet {β : Type} {lt : β → β → Prop} (hwf : WellFounded lt) (rank : Nat → β)
    (busy : Nat → Prop) (hlt : ∀ n, busy n → lt (rank (n + 1)) (rank n))
    (hle : ∀ n, rank (n + 1) = rank n ∨ lt (rank (n + 1)) (rank n)) :
    ∃ n, ∀ m, n ≤ m → ¬ busy m := by
  have hfrom : ∀ r k, rank k = r → ∃ n, ∀ m, n ≤ m → ¬ busy m := by
    intro r
    induction r using hwf.induction with
    | _ r ih =>
      intro k hk
      by_cases hq : ∀ m, k ≤ m → ¬ busy m
      · exact ⟨k, hq⟩
      -- the rank at the next busy action is at most that at `k`
      · push Not at hq
        obtain ⟨m, hkm, hm⟩ := hq
        have hstep := hlt m hm
        have hfall : ∀ j, k ≤ j → rank j = r ∨ ∃ i, lt (rank i) r := by
          intro j hj
          induction hj with
          | refl => exact .inl hk
          | @step j _ ihj =>
            rcases ihj with he | hi
            · rcases hle j with h | h
              · exact .inl (h.trans he)
              · exact .inr ⟨j + 1, he ▸ h⟩
            · exact .inr hi
        rcases hfall m hkm with he | ⟨i, hi⟩
        · exact ih _ (he ▸ hstep) (m + 1) rfl
        · exact ih _ hi i rfl
  exact hfrom _ 0 rfl
