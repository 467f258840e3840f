import Frog.Lib.Prog

/-!
# Watched programs

A program with notes on what it does. The notes have no influence on it, and they are there however
the program ends.
-/

set_option autoImplicit false

namespace Prog

variable {ε σ κ α β : Type}

abbrev Watched (ε σ κ α : Type) : Type := Prog (ε × κ) (σ × κ) α

def watch (m : Prog ε σ α) : Watched ε σ κ α := fun s =>
  match m s.1 with
  | .ok (a, t) => .ok (a, (t, s.2))
  | .error e => .error (e, s.2)

def note (f : κ → κ) : Watched ε σ κ Unit := modify fun s => (s.1, f s.2)

theorem watch_ok {m : Prog ε σ α} {a : α} {s t : σ} {k : κ} (h : m s = .ok (a, t)) :
    watch m (s, k) = .ok (a, (t, k)) := by
  unfold watch
  rw [h]

theorem watch_eq_ok {m : Prog ε σ α} {a : α} {s : σ} {k : κ} {t : σ × κ}
    (h : watch m (s, k) = .ok (a, t)) : m s = .ok (a, t.1) ∧ t.2 = k := by
  unfold watch at h
  cases hm : m s with
  | error e =>
    rw [hm] at h
    cases h
  | ok r =>
    rw [hm] at h
    cases h
    exact ⟨rfl, rfl⟩

/-- An outcome with the notes at its end. -/
def withNotes (k : κ) : Except ε (α × σ) → Except (ε × κ) (α × (σ × κ))
  | .ok (a, t) => .ok (a, (t, k))
  | .error e => .error (e, k)

def notes : Except (ε × κ) (α × (σ × κ)) → κ
  | .ok (_, (_, k)) => k
  | .error (_, k) => k

/-- Without its notes the program is `m`. -/
def Watches (w : Watched ε σ κ α) (m : Prog ε σ α) : Prop :=
  ∀ s k, ∃ k', w (s, k) = withNotes k' (m s)

theorem Watches.watch (m : Prog ε σ α) : Watches (Prog.watch m : Watched ε σ κ α) m := by
  intro s k
  refine ⟨k, ?_⟩
  unfold Prog.watch withNotes
  cases m s <;> rfl

theorem Watches.pure (a : α) : Watches (Pure.pure a : Watched ε σ κ α) (Pure.pure a) :=
  fun _ k => ⟨k, rfl⟩

theorem Watches.bind {w : Watched ε σ κ α} {m : Prog ε σ α} {w' : α → Watched ε σ κ β}
    {m' : α → Prog ε σ β} (h : Watches w m) (h' : ∀ a, Watches (w' a) (m' a)) :
    Watches (w >>= w') (m >>= m') := by
  intro s k
  obtain ⟨k', hk⟩ := h s k
  rw [bind_apply, bind_apply, hk]
  cases m s with
  | error e => exact ⟨k', rfl⟩
  | ok r => exact h' r.1 r.2 k'

/-- A note stands between two parts of the program. -/
theorem Watches.note_bind {f : κ → κ} {w : Unit → Watched ε σ κ α} {m : Prog ε σ α}
    (h : Watches (w ()) m) : Watches (note f >>= w) m :=
  fun s k => h s (f k)

theorem Watches.ite {c : Prop} [Decidable c] {w w' : Watched ε σ κ α} {m m' : Prog ε σ α}
    (h : c → Watches w m) (h' : ¬ c → Watches w' m') :
    Watches (if c then w else w') (if c then m else m') := by
  by_cases hc : c
  · rw [if_pos hc, if_pos hc]
    exact h hc
  · rw [if_neg hc, if_neg hc]
    exact h' hc

section Wp
variable {E : ε × κ → Prop} {s : σ} {k : κ}

@[simp] theorem wp_watch {m : Prog ε σ α} {Q : α → σ × κ → Prop} :
    wp E (watch m) Q (s, k) ↔ wp (fun e => E (e, k)) m (fun a t => Q a (t, k)) s := by
  unfold wp watch
  cases m s <;> rfl

@[simp] theorem wp_note {f : κ → κ} {Q : Unit → σ × κ → Prop} :
    wp E (note f) Q (s, k) ↔ Q () (s, f k) := Iff.rfl

end Wp

/-! ## What a program keeps of its notes -/

/-- However the program ends, `P` still holds of the notes. -/
def Keeps (P : κ → Prop) (w : Watched ε σ κ α) : Prop :=
  ∀ s k, P k → wp (fun e => P e.2) w (fun _ t => P t.2) (s, k)

section Keeps
variable {P : κ → Prop} {w : Watched ε σ κ α}

theorem Keeps.watch (m : Prog ε σ α) : Keeps P (Prog.watch m : Watched ε σ κ α) := by
  intro s k hk
  rw [wp_watch]
  unfold wp
  split <;> exact hk

theorem Keeps.pure (a : α) : Keeps P (Pure.pure a : Watched ε σ κ α) := fun _ _ hk => hk

theorem Keeps.note {f : κ → κ} (h : ∀ k, P k → P (f k)) :
    Keeps P (Prog.note f : Watched ε σ κ Unit) := fun _ k hk => h k hk

theorem Keeps.bind {w' : α → Watched ε σ κ β} (h : Keeps P w) (h' : ∀ a, Keeps P (w' a)) :
    Keeps P (w >>= w') := by
  intro s k hk
  rw [wp_bind]
  exact wp_mono (h s k hk) fun a t => h' a t.1 t.2

theorem Keeps.ite {c : Prop} [Decidable c] {w' : Watched ε σ κ α} (h : c → Keeps P w)
    (h' : ¬ c → Keeps P w') : Keeps P (if c then w else w') := by
  by_cases hc : c
  · rw [if_pos hc]
    exact h hc
  · rw [if_neg hc]
    exact h' hc

/-- Both branches go on alike. -/
theorem Keeps.ite_bind {c : Prop} [Decidable c] {m m' : Watched ε σ κ α} {f : α → Watched ε σ κ β}
    (h : c → Keeps P m) (h' : ¬ c → Keeps P m') (hf : ∀ a, Keeps P (f a)) :
    Keeps P (if c then m >>= f else m' >>= f) :=
  .ite (fun hc => (h hc).bind hf) fun hc => (h' hc).bind hf

theorem notes_of_wp {s : σ} {k : κ} (h : wp (fun e => P e.2) w (fun _ t => P t.2) (s, k)) :
    P (notes (w (s, k))) := by
  unfold wp at h
  unfold notes
  split at h <;> rename_i hw <;> rw [hw] <;> exact h

end Keeps

end Prog
