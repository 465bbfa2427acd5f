import Mathlib

/-!
# Computations that may fail and keep what they did

`EStateM ε σ` is the monad of code that changes a state and may stop with an
error; the changes made before the error stay.  `wp x Q E s` says that `x`, run
in `s`, either returns with `Q` or fails with `E`.  The equations below compute
it through a `do` block; a loop or a call is passed by its own specification and
`wp_mono`.
-/

namespace Fallible

variable {ε σ α β : Type} {s s' : σ}

/-- Run in `s`, the computation returns with `Q` or fails with `E`. -/
def wp (x : EStateM ε σ α) (Q : α → σ → Prop) (E : ε → σ → Prop) (s : σ) : Prop :=
  match x.run s with
  | .ok a s' => Q a s'
  | .error e s' => E e s'

variable {Q Q' : α → σ → Prop} {E E' : ε → σ → Prop}

theorem wp_ok {x : EStateM ε σ α} {a : α} (h : x.run s = .ok a s') : wp x Q E s ↔ Q a s' := by
  rw [wp, h]

theorem wp_error {x : EStateM ε σ α} {e : ε} (h : x.run s = .error e s') :
    wp x Q E s ↔ E e s' := by
  rw [wp, h]

@[simp] theorem wp_pure (a : α) : wp (pure a) Q E s ↔ Q a s := Iff.rfl

@[simp] theorem wp_get {Q : σ → σ → Prop} : wp (get : EStateM ε σ σ) Q E s ↔ Q s s := Iff.rfl

@[simp] theorem wp_set {Q : PUnit → σ → Prop} :
    wp (set s' : EStateM ε σ PUnit) Q E s ↔ Q ⟨⟩ s' := Iff.rfl

@[simp] theorem wp_modify {Q : PUnit → σ → Prop} {f : σ → σ} :
    wp (modify f : EStateM ε σ PUnit) Q E s ↔ Q ⟨⟩ (f s) := Iff.rfl

@[simp] theorem wp_bind {x : EStateM ε σ α} {f : α → EStateM ε σ β} {Q : β → σ → Prop} :
    wp (x >>= f) Q E s ↔ wp x (fun a => wp (f a) Q E) E s := by
  simp only [wp, EStateM.run, bind, EStateM.bind]
  cases x s <;> rfl

@[simp] theorem wp_ite {p : Prop} [Decidable p] {x y : EStateM ε σ α} :
    wp (if p then x else y) Q E s ↔ (p → wp x Q E s) ∧ (¬ p → wp y Q E s) := by
  by_cases h : p <;> simp [h]

/-- A computation by itself, followed by what its specification gives. -/
theorem wp_mono {x : EStateM ε σ α} (h : wp x Q E s) (hQ : ∀ a s', Q a s' → Q' a s')
    (hE : ∀ e s', E e s' → E' e s') : wp x Q' E' s := by
  unfold wp at *
  split
  · next a s' hx =>
      rw [hx] at h
      exact hQ a s' h
  · next e s' hx =>
      rw [hx] at h
      exact hE e s' h

/-- A computation that cannot fail returns. -/
theorem eq_ok_of_wp {x : EStateM ε σ α} (h : wp x Q (fun _ _ => False) s) :
    ∃ a s', x.run s = .ok a s' ∧ Q a s' := by
  unfold wp at h
  split at h
  · next a s' hx => exact ⟨a, s', hx, h⟩
  · exact h.elim

/-- What holds of every outcome holds of the one there is. -/
theorem of_wp_ok {x : EStateM ε σ α} {a : α} (h : wp x Q E s) (hx : x.run s = .ok a s') : Q a s' :=
  (wp_ok hx).1 h

theorem of_wp_error {x : EStateM ε σ α} {e : ε} (h : wp x Q E s) (hx : x.run s = .error e s') :
    E e s' :=
  (wp_error hx).1 h

end Fallible
