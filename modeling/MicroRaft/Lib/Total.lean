import MicroRaft.Lib.EffectM

/-!
# Programs that do not abort

`Ends Q m s` says that `m`, started in `s`, does not abort and ends as `Q` says:
the weakest precondition of `Q` for total correctness.  It computes along the
program, one equation per construct, and what it computes at an `expect` or a
`require` is the condition under which the program does not abort there.
-/

namespace EffectM

variable {σ ε α β : Type}

/-- Started in `s`, the program returns, and its value and last state satisfy `Q`. -/
def Ends (Q : α → σ → Prop) (m : EffectM σ ε α) (s : σ) : Prop :=
  ∃ a s' es, m s = some (a, s', es) ∧ Q a s'

namespace Ends

variable {Q R : α → σ → Prop} {s : σ}

theorem mono {m : EffectM σ ε α} (h : Ends Q m s) (hQR : ∀ a s', Q a s' → R a s') :
    Ends R m s := by
  obtain ⟨a, s', es, hm, hQ⟩ := h
  exact ⟨a, s', es, hm, hQR a s' hQ⟩

/-- What a program that ends returned, read off from an execution. -/
theorem elim {m : EffectM σ ε α} (h : Ends Q m s) {a : α} {s' : σ} {es : List ε}
    (hm : m s = some (a, s', es)) : Q a s' := by
  obtain ⟨a₁, s₁, es₁, hm₁, hQ⟩ := h
  rw [hm] at hm₁
  cases hm₁
  exact hQ

end Ends

/-! ## One equation per construct -/

section Rules

variable {Q : β → σ → Prop} {s : σ}

@[simp] theorem ends_pure {b : β} : Ends (ε := ε) Q (pure b) s ↔ Q b s := by
  constructor
  · rintro ⟨b', s', es, heq, hQ⟩
    rw [pure_apply] at heq
    cases heq
    exact hQ
  · exact fun hQ => ⟨b, s, [], rfl, hQ⟩

theorem ends_bind {m : EffectM σ ε α} {f : α → EffectM σ ε β} :
    Ends Q (m >>= f) s ↔ Ends (fun a s' => Ends Q (f a) s') m s := by
  constructor
  · rintro ⟨b, s', es, heq, hQ⟩
    obtain ⟨a, s₁, e₁, e₂, h₁, h₂, -⟩ := bind_eq_some heq
    exact ⟨a, s₁, e₁, h₁, b, s', e₂, h₂, hQ⟩
  · rintro ⟨a, s₁, e₁, h₁, b, s', e₂, h₂, hQ⟩
    exact ⟨b, s', e₁ ++ e₂, bind_some h₁ h₂, hQ⟩

@[simp] theorem ends_peek_bind {f : σ → EffectM σ ε β} :
    Ends Q (peek >>= f) s ↔ Ends Q (f s) s := by
  unfold Ends
  rw [peek_bind]

@[simp] theorem ends_update_bind {g : σ → σ} {f : Unit → EffectM σ ε β} :
    Ends Q (update g >>= f) s ↔ Ends Q (f ()) (g s) := by
  unfold Ends
  rw [update_bind]

@[simp] theorem ends_emits_bind {es : List ε} {f : Unit → EffectM σ ε β} :
    Ends Q (emits es >>= f) s ↔ Ends Q (f ()) s := by
  rw [ends_bind]
  constructor
  · rintro ⟨⟨⟩, s', es', heq, h⟩
    cases heq
    exact h
  · exact fun h => ⟨(), s, es, rfl, h⟩

@[simp] theorem ends_emit_bind {e : ε} {f : Unit → EffectM σ ε β} :
    Ends Q (emit e >>= f) s ↔ Ends Q (f ()) s :=
  ends_emits_bind

@[simp] theorem ends_expect_bind {o : Option α} {f : α → EffectM σ ε β} :
    Ends Q (expect o >>= f) s ↔ ∃ a, o = some a ∧ Ends Q (f a) s := by
  constructor
  · rintro ⟨b, s', es, heq, hQ⟩
    obtain ⟨a, ho, hf⟩ := expect_bind_inv heq
    exact ⟨a, ho, b, s', es, hf, hQ⟩
  · rintro ⟨a, rfl, h⟩
    exact ends_bind.2 ⟨a, s, [], rfl, h⟩

@[simp] theorem ends_require_bind {c : Prop} [Decidable c] {f : Unit → EffectM σ ε β} :
    Ends Q (require c >>= f) s ↔ c ∧ Ends Q (f ()) s := by
  constructor
  · rintro ⟨b, s', es, heq, hQ⟩
    obtain ⟨hc, hf⟩ := require_bind_inv heq
    exact ⟨hc, b, s', es, hf, hQ⟩
  · rintro ⟨hc, b, s', es, hf, hQ⟩
    exact ⟨b, s', es, by rw [require_bind hc]; exact hf, hQ⟩

end Rules

section Last

variable {Q : Unit → σ → Prop} {s : σ}

@[simp] theorem ends_update {g : σ → σ} : Ends (ε := ε) Q (update g) s ↔ Q () (g s) := by
  constructor
  · rintro ⟨⟨⟩, s', es, heq, hQ⟩
    cases heq
    exact hQ
  · exact fun hQ => ⟨(), g s, [], rfl, hQ⟩

@[simp] theorem ends_emits {es : List ε} : Ends Q (emits es) s ↔ Q () s := by
  constructor
  · rintro ⟨⟨⟩, s', es', heq, hQ⟩
    cases heq
    exact hQ
  · exact fun hQ => ⟨(), s, es, rfl, hQ⟩

@[simp] theorem ends_emit {e : ε} : Ends Q (emit e) s ↔ Q () s := ends_emits

theorem ends_when {c : Prop} [Decidable c] {m : EffectM σ ε Unit} :
    Ends Q (when c m) s ↔ (c → Ends Q m s) ∧ (¬ c → Q () s) := by
  unfold when
  split
  · next hc => exact ⟨fun h => ⟨fun _ => h, fun hn => absurd hc hn⟩, fun h => h.1 hc⟩
  · next hc =>
      rw [ends_pure]
      exact ⟨fun h => ⟨fun hp => absurd hp hc, fun _ => h⟩, fun h => h.2 hc⟩

/-- A loop whose body keeps an invariant does not abort. -/
theorem Ends.forM {l : List α} {f : α → EffectM σ ε PUnit} {I : σ → Prop}
    (h : ∀ x ∈ l, ∀ s, I s → Ends (fun _ => I) (f x) s) (hs : I s) :
    Ends (fun _ => I) (l.forM f) s := by
  induction l generalizing s with
  | nil => exact ends_pure.2 hs
  | cons x l ih =>
    show Ends _ (f x >>= fun _ => l.forM f) s
    refine ends_bind.2 ((h x (List.mem_cons_self ..) s hs).mono fun _ s' hs' => ?_)
    exact ih (fun y hy => h y (List.mem_cons_of_mem _ hy)) hs'

end Last

end EffectM
