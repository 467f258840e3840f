import Frog.Lib.Bytes

/-!
# Programs over a state that may stop

`Prog ε σ α` runs from a state and either returns a value with a new state or stops with
a reason. `wp E m Q s` says that from `s` the program `m` ends in `Q`, or stops for a
reason in `E`; with `E` empty it says that the program returns.
-/

set_option autoImplicit false

def Prog (ε σ α : Type) : Type := σ → Except ε (α × σ)

namespace Prog

variable {ε σ α β : Type}

instance : Monad (Prog ε σ) where
  pure a := fun s => .ok (a, s)
  bind m f := fun s =>
    match m s with
    | .ok (a, t) => f a t
    | .error e => .error e

def get : Prog ε σ σ := fun s => .ok (s, s)

def modify (f : σ → σ) : Prog ε σ Unit := fun s => .ok ((), f s)

def stop (e : ε) : Prog ε σ α := fun _ => .error e

/-- Go on only if `c` holds. -/
def check (c : Prop) [Decidable c] (e : ε) : Prog ε σ Unit :=
  if c then pure () else stop e

/-- The value of an optional cell, or the stop `e`. -/
def need (o : Option α) (e : ε) : Prog ε σ α :=
  match o with
  | some a => pure a
  | none => stop e

@[simp] theorem pure_apply (a : α) (s : σ) : (pure a : Prog ε σ α) s = .ok (a, s) := rfl

theorem bind_apply (m : Prog ε σ α) (f : α → Prog ε σ β) (s : σ) :
    (m >>= f) s = match m s with
      | .ok (a, t) => f a t
      | .error e => .error e := rfl

@[simp] theorem get_apply (s : σ) : (get : Prog ε σ σ) s = .ok (s, s) := rfl

@[simp] theorem modify_apply (f : σ → σ) (s : σ) :
    (modify f : Prog ε σ Unit) s = .ok ((), f s) := rfl

@[simp] theorem stop_apply (e : ε) (s : σ) : (stop e : Prog ε σ α) s = .error e := rfl

theorem bind_ok {m : Prog ε σ α} {f : α → Prog ε σ β} {s t : σ} {a : α}
    (h : m s = .ok (a, t)) : (m >>= f) s = f a t := by
  rw [bind_apply, h]

/-- What is computed of a run is known of the run. -/
theorem ok_of_map {m : Prog ε σ α} {s : σ} {f : α × σ → β} {b : β} (h : (m s).map f = .ok b) :
    ∃ a t, m s = .ok (a, t) ∧ f (a, t) = b := by
  cases hm : m s with
  | error e =>
    rw [hm] at h
    cases h
  | ok r =>
    rw [hm] at h
    exact ⟨r.1, r.2, rfl, Except.ok.inj h⟩

/-- What a run returns can be computed. The state it ends in need not be. -/
theorem ok_of_result {m : Prog ε σ α} {s : σ} {a : α} (h : (m s).map Prod.fst = .ok a) :
    ∃ t, m s = .ok (a, t) := by
  obtain ⟨b, t, hm, rfl⟩ := ok_of_map h
  exact ⟨t, hm⟩

theorem bind_error {m : Prog ε σ α} {f : α → Prog ε σ β} {s : σ} {e : ε}
    (h : m s = .error e) : (m >>= f) s = .error e := by
  rw [bind_apply, h]

theorem bind_assoc {γ : Type} (m : Prog ε σ α) (f : α → Prog ε σ β) (g : β → Prog ε σ γ) :
    (m >>= f) >>= g = m >>= fun a => f a >>= g := by
  funext s
  simp only [bind_apply]
  cases m s <;> rfl

/-- A sequence returns exactly when both parts do. -/
theorem bind_eq_ok {m : Prog ε σ α} {f : α → Prog ε σ β} {s u : σ} {b : β} :
    (m >>= f) s = .ok (b, u) ↔ ∃ a t, m s = .ok (a, t) ∧ f a t = .ok (b, u) := by
  rw [bind_apply]
  cases h : m s with
  | error e => simp
  | ok p => simp [Prod.ext_iff]

theorem check_eq_ok {c : Prop} [Decidable c] {e : ε} {s t : σ} {u : Unit} :
    (check c e : Prog ε σ Unit) s = .ok (u, t) ↔ c ∧ t = s := by
  by_cases hc : c <;> simp [check, hc, Prod.ext_iff, eq_comm]

theorem check_bind {c : Prop} [Decidable c] (hc : c) (e : ε) (f : Unit → Prog ε σ α) {s : σ} :
    (check c e >>= f) s = f () s := by
  unfold check
  rw [if_pos hc]
  rfl

theorem need_some (a : α) (e : ε) (s : σ) : need (some a) e s = .ok (a, s) := rfl

/-- A program over a part of the state. -/
def zoom {ε' τ : Type} (part : σ → τ) (put : σ → τ → σ) (err : ε' → ε) (m : Prog ε' τ α) :
    Prog ε σ α := fun s =>
  match m (part s) with
  | .ok (a, t) => .ok (a, put s t)
  | .error e => .error (err e)

/-! ## Weakest preconditions -/

def wp (E : ε → Prop) (m : Prog ε σ α) (Q : α → σ → Prop) (s : σ) : Prop :=
  match m s with
  | .ok (a, t) => Q a t
  | .error e => E e

variable {E : ε → Prop} {Q : α → σ → Prop} {s : σ}

@[simp] theorem wp_pure (a : α) : wp E (pure a) Q s ↔ Q a s := Iff.rfl

@[simp] theorem wp_get {Q : σ → σ → Prop} : wp E get Q s ↔ Q s s := Iff.rfl

@[simp] theorem wp_modify {Q : Unit → σ → Prop} (f : σ → σ) :
    wp E (modify f) Q s ↔ Q () (f s) := Iff.rfl

@[simp] theorem wp_stop (e : ε) : wp E (stop e) Q s ↔ E e := Iff.rfl

@[simp] theorem wp_bind (m : Prog ε σ β) (f : β → Prog ε σ α) :
    wp E (m >>= f) Q s ↔ wp E m (fun b t => wp E (f b) Q t) s := by
  unfold wp
  rw [bind_apply]
  cases m s <;> rfl

@[simp] theorem wp_ite (c : Prop) [Decidable c] (m m' : Prog ε σ α) :
    wp E (if c then m else m') Q s ↔ (c → wp E m Q s) ∧ (¬ c → wp E m' Q s) := by
  by_cases hc : c <;> simp [hc]

@[simp] theorem wp_check {Q : Unit → σ → Prop} (c : Prop) [Decidable c] (e : ε) :
    wp E (check c e) Q s ↔ (c → Q () s) ∧ (¬ c → E e) := by
  unfold check
  rw [wp_ite, wp_pure, wp_stop]

@[simp] theorem wp_need (o : Option α) (e : ε) :
    wp E (need o e) Q s ↔ (∀ a, o = some a → Q a s) ∧ (o = none → E e) := by
  cases o <;> simp [need]

@[simp] theorem wp_zoom {ε' τ : Type} (part : σ → τ) (put : σ → τ → σ) (err : ε' → ε)
    (m : Prog ε' τ α) :
    wp E (zoom part put err m) Q s ↔
      wp (fun e => E (err e)) m (fun a t => Q a (put s t)) (part s) := by
  unfold wp zoom
  cases m (part s) <;> rfl

theorem wp_mono {m : Prog ε σ α} {Q' : α → σ → Prop} (h : wp E m Q s)
    (hq : ∀ a t, Q a t → Q' a t) : wp E m Q' s := by
  unfold wp at *
  split at h
  · exact hq _ _ h
  · exact h

/-- What always holds holds at the end, if stopping is no matter. -/
theorem wp_always {m : Prog ε σ α} (hq : ∀ a t, Q a t) : wp (fun _ => True) m Q s := by
  unfold wp
  split
  · exact hq _ _
  · trivial

/-- More reasons to stop may be allowed. -/
theorem wp_allow {E' : ε → Prop} {m : Prog ε σ α} (h : wp E m Q s) (he : ∀ e, E e → E' e) :
    wp E' m Q s := by
  unfold wp at *
  split at h
  · exact h
  · exact he _ h

/-- A known run decides the weakest precondition. -/
theorem wp_of_ok {m : Prog ε σ α} {a : α} {t : σ} (h : m s = .ok (a, t)) :
    wp E m Q s ↔ Q a t := by
  unfold wp
  rw [h]

/-- Only the outcome matters. -/
theorem wp_of_run {m m' : Prog ε σ α} {s' : σ} (h : m s = m' s') : wp E m Q s ↔ wp E m' Q s' := by
  unfold wp
  rw [h]

theorem wp_ok {m : Prog ε σ α} {a : α} {t : σ} (h : wp E m Q s) (hm : m s = .ok (a, t)) :
    Q a t := (wp_of_ok hm).mp h

/-- With no reason to stop allowed, the program returns. -/
theorem ok_of_wp {m : Prog ε σ α} (h : wp (fun _ => False) m Q s) :
    ∃ a t, m s = .ok (a, t) ∧ Q a t := by
  unfold wp at h
  split at h
  · rename_i a t hm
    exact ⟨a, t, hm, h⟩
  · exact h.elim

/-- A program returns when no reason to stop is needed. -/
theorem returns_iff {m : Prog ε σ α} :
    (∃ a t, m s = .ok (a, t)) ↔ wp (fun _ => False) m (fun _ _ => True) s := by
  constructor
  · intro h
    obtain ⟨a, t, h⟩ := h
    exact (wp_of_ok h).mpr trivial
  · intro h
    obtain ⟨a, t, h, -⟩ := ok_of_wp h
    exact ⟨a, t, h⟩

theorem wp_check_iff {Q : Unit → σ → Prop} (c : Prop) [Decidable c] (e : ε) :
    wp (fun _ => False) (check c e) Q s ↔ c ∧ Q () s := by
  rw [wp_check]
  tauto

/-- A run that is known is a weakest precondition with nothing left open. -/
theorem run_eq_of_wp {m : Prog ε σ α} {a : α} {t : σ}
    (h : wp (fun _ => False) m (fun a' t' => a' = a ∧ t' = t) s) : m s = .ok (a, t) := by
  obtain ⟨a', t', hm, rfl, rfl⟩ := ok_of_wp h
  exact hm

theorem wp_congr {m : Prog ε σ α} {Q' : α → σ → Prop} (h : ∀ a t, Q a t ↔ Q' a t) :
    wp E m Q s ↔ wp E m Q' s :=
  ⟨fun hm => wp_mono hm fun a t => (h a t).mp, fun hm => wp_mono hm fun a t => (h a t).mpr⟩

/-- Programs with the same weakest preconditions, up to `f` on the state they end in, have the same
outcome. -/
theorem map_of_wp {m m' : Prog ε σ α} {s' : σ} {f : σ → σ}
    (h : ∀ (E : ε → Prop) (Q : α → σ → Prop),
      wp E m' (fun a t => Q a (f t)) s' → wp E m Q s) :
    m s = (m' s').map fun r => (r.1, f r.2) := by
  cases hm : m' s' with
  | ok r =>
    obtain ⟨a, t⟩ := r
    have hw : wp (fun _ => False) m' (fun a' t' => a' = a ∧ f t' = f t) s' := by
      rw [wp_of_ok hm]
      exact ⟨rfl, rfl⟩
    obtain ⟨a', t', hr, rfl, rfl⟩ := ok_of_wp (h _ (fun a' t' => a' = a ∧ t' = f t) hw)
    exact hr
  | error e =>
    have hw : wp (· = e) m' (fun _ _ => False) s' := by
      unfold wp
      rw [hm]
    have hr := h (· = e) (fun _ _ => False) hw
    unfold wp at hr
    split at hr
    · exact hr.elim
    · rename_i e' he
      rw [he, hr]
      rfl

theorem wp_and {E' : ε → Prop} {m : Prog ε σ α} {Q' : α → σ → Prop} (h : wp E m Q s)
    (h' : wp E' m Q' s) : wp E m (fun a t => Q a t ∧ Q' a t) s := by
  unfold wp at *
  split <;> simp_all

end Prog
